import Mathlib
import PeerScript.Proofs.Sittings

/-!
# Sessions do not see each other

The sessions of a server share its frames, but every session writes only in frames of its own.  So a
seat cannot tell whether there are others.  `seats_isolated` says so of every order of messages that
use no reserved name: a seat gets the answers that it would get if it were the only one, and the
global scope stays as it was made.

The invariant is `Apart`.  It compares the server with one imagined server for each seat, in which
only that seat is served, and each message moves the server and the imagined one of its seat.
-/

set_option autoImplicit false

namespace PeerScript

open Service (Server Seat Sitting IsReserved IsGlobal)

namespace Service.Server

/-! ## A server as it was made -/

/-- The server is as it was made, except for the frames of its sessions. -/
structure Stays (s base : Server) : Prop where
  settings : s.settings = base.settings
  registry : s.registry = base.registry
  globals : s.globals = base.globals
  root : s.store.frames[base.globals]? = base.store.frames[base.globals]?

namespace Stays

variable {base s t : Server} (h : s.Stays base) (new : base.IsNew)

include h new

theorem root_eq : s.store.frames[0]? = base.store.frames[0]? := new.globals ▸ h.root

theorem nonempty : 0 < s.store.frames.size := by
  have found := (h.root_eq new).trans (Array.getElem?_eq_getElem new.store.nonempty)
  exact (Array.getElem?_eq_some_iff.mp found).1

theorem top : s.store.parent? 0 = none :=
  (Store.parent?_congr (h.root_eq new)).trans new.store.parent

/-- Both offer what was offered when they were made. -/
theorem offers (k : t.Stays base) : s.Offers t where
  top := h.top new
  top_right := k.top new
  nonempty := h.nonempty new
  nonempty_right := k.nonempty new
  offers := by
    rw [Store.bindings_congr (h.root_eq new), Store.bindings_congr (k.root_eq new)]
    exact new.store.offersAlike

/-- The global scope has not been written. -/
theorem of_root {s' : Server} (settings : s'.settings = s.settings)
    (registry : s'.registry = s.registry) (globals : s'.globals = s.globals)
    (root : s'.store.frames[0]? = s.store.frames[0]?) : s'.Stays base where
  settings := settings.trans h.settings
  registry := registry.trans h.registry
  globals := globals.trans h.globals
  root := by
    have same := root.trans (h.root_eq new)
    rwa [← new.globals] at same

end Stays

/-! ## A server and its seats one by one -/

/-- A server, and for each seat a server that serves nobody else.  The seats share no frame. -/
structure Apart (base : Server) (pairs : Seat → Pairing) (solo : Seat → Server) (s : Server) :
    Prop where
  new : base.IsNew
  stays : s.Stays base
  alone : ∀ seat, (solo seat).Stays base
  sitting : ∀ seat, Option.Rel (Sitting (pairs seat) s (solo seat)) (s.idle.lookup seat)
    ((solo seat).idle.lookup seat)
  there : ∀ seat f g, (pairs seat).frames f g → f < s.store.frames.size
  disjoint : ∀ seat other f g g', (pairs seat).frames f g → (pairs other).frames f g' → seat = other

namespace Apart

variable {base s : Server} {pairs : Seat → Pairing} {solo : Seat → Server}
  (h : Apart base pairs solo s)

include h

/-- Two servers on which a seat is served offer the same. -/
theorem offers (seat : Seat) : s.Offers (solo seat) := h.stays.offers h.new (h.alone seat)

theorem session {seat : Seat} {session : Session} (found : s.idle.lookup seat = some session) :
    ∃ session', (solo seat).idle.lookup seat = some session' ∧
      Sitting (pairs seat) s (solo seat) session session' := by
  have related := h.sitting seat
  rw [found] at related
  generalize (solo seat).idle.lookup seat = x at related
  cases related with
  | some sitting => exact ⟨_, rfl, sitting⟩

theorem vacant {seat : Seat} (vacant : s.idle.lookup seat = none) :
    (solo seat).idle.lookup seat = none := by
  have related := h.sitting seat
  rw [vacant] at related
  generalize (solo seat).idle.lookup seat = x at related ⊢
  cases related
  rfl

/-- One seat has been served, in frames that belong to no other seat. -/
theorem updated {seat : Seat} {q : Pairing} {s' t' : Server} (stays : s'.Stays base)
    (alone : t'.Stays base)
    (sitting : Option.Rel (Sitting q s' t') (s'.idle.lookup seat) (t'.idle.lookup seat))
    (idle : ∀ other, other ≠ seat → s'.idle.lookup other = s.idle.lookup other)
    (spared : ∀ other session, other ≠ seat → s.idle.lookup other = some session →
      session.Spared s.store s'.store)
    (size : s.store.frames.size ≤ s'.store.frames.size) (serial : s.serial ≤ s'.serial)
    (there : ∀ f g, q.frames f g → f < s'.store.frames.size)
    (disjoint : ∀ f g, q.frames f g → ∀ other g', other ≠ seat → ¬ (pairs other).frames f g') :
    Apart base (Function.update pairs seat q) (Function.update solo seat t') s' where
  new := h.new
  stays := stays
  alone other := by
    by_cases same : other = seat
    · subst same
      rwa [Function.update_self]
    · rw [Function.update_of_ne same]
      exact h.alone other
  sitting other := by
    by_cases same : other = seat
    · subst same
      rwa [Function.update_self, Function.update_self]
    · rw [Function.update_of_ne same, Function.update_of_ne same, idle other same]
      have related := h.sitting other
      have spared := fun session => spared other session same
      generalize s.idle.lookup other = x, (solo other).idle.lookup other = y
        at related spared ⊢
      cases related with
      | none => exact .none
      | some sitting =>
          exact .some (sitting.spared (spared _ rfl) (.refl _ _) serial (Nat.le_refl _))
  there other f g paired := by
    by_cases same : other = seat
    · subst same
      rw [Function.update_self] at paired
      exact there f g paired
    · rw [Function.update_of_ne same] at paired
      exact Nat.lt_of_lt_of_le (h.there other f g paired) size
  disjoint k l f g g' paired paired' := by
    by_cases first : k = seat <;> by_cases second : l = seat
    · exact first.trans second.symm
    · subst first
      rw [Function.update_self] at paired
      rw [Function.update_of_ne second] at paired'
      exact absurd paired' (disjoint f g paired l g' second)
    · subst second
      rw [Function.update_self] at paired'
      rw [Function.update_of_ne first] at paired
      exact absurd paired (disjoint f g' paired' k g first)
    · rw [Function.update_of_ne first] at paired
      rw [Function.update_of_ne second] at paired'
      exact h.disjoint k l f g g' paired paired'

/-- A seat gets a new session. -/
theorem seated (seat : Seat) :
    Apart base
      (Function.update pairs seat
        (Pairing.nothing.withFrames s.store.frames.size (solo seat).store.frames.size))
      (Function.update solo seat ((solo seat).seated seat)) (s.seated seat) := by
  have offers := h.offers seat
  have globals : s.globals = 0 := h.stays.globals.trans h.new.globals
  have globals' : (solo seat).globals = 0 := (h.alone seat).globals.trans h.new.globals
  have registry : (solo seat).registry = s.registry :=
    (h.alone seat).registry.trans h.stays.registry.symm
  have natural : s.registry.IsNatural := h.stays.registry ▸ h.new.natural
  have fresh : ∀ f g, (Pairing.nothing.withFrames s.store.frames.size
      (solo seat).store.frames.size).frames f g → f = s.store.frames.size :=
    fun f g paired => paired.elim False.elim And.left
  refine h.updated (h.stays.of_root h.new rfl rfl rfl ?_)
    ((h.alone seat).of_root h.new rfl rfl rfl ?_) ?_ (fun other ne => ?_) (fun other _ _ _ => ?_) ?_
    (Nat.le_refl _) (fun f g paired => ?_) fun f g paired other g' _ paired' => ?_
  · exact Store.frames_alloc_of_lt _ offers.nonempty
  · exact Store.frames_alloc_of_lt _ offers.nonempty_right
  · have made := Sitting.new offers natural globals globals' seat seat
    change Option.Rel _ ((Association.put seat _ s.idle).lookup seat)
      ((Association.put seat _ (solo seat).idle).lookup seat)
    rw [Association.lookup_put, if_pos rfl, Association.lookup_put, if_pos rfl, registry]
    exact .some made
  · exact (Association.lookup_put ..).trans (if_neg ne)
  · exact Store.spares_alloc _ _ _
  · exact (s.store.widens_alloc (some s.globals)).size
  · rw [fresh f g paired]
    exact Nat.lt_of_lt_of_eq (Nat.lt_succ_self _) (Store.size_alloc _).symm
  · exact absurd (h.there other f g' paired') (fresh f g paired ▸ Nat.lt_irrefl _)

/-- What a session keeps is paired, but for the global scope. -/
theorem paired_of_keeps {seat : Seat} {session : Session}
    (found : s.idle.lookup seat = some session) {f : FrameId}
    (kept : s.store.alive session.handles f = true) : f = 0 ∨ ∃ g, (pairs seat).frames f g := by
  obtain ⟨session', -, sitting⟩ := h.session found
  refine sitting.alike.paired_of_keeps ?_ ?_
  · rw [common_store]
    exact h.stays.top h.new
  · change ((s.common ()).store).alive session.handles f = true
    rwa [common_store]

/-- The session of a seat has run, among others and alone, in machines that look alike. -/
theorem resumed {seat : Seat} {c d : Common Network} {store : c.store = s.store}
    {store' : d.store = (solo seat).store} {at_ : Places} {q : Pairing} {m m' : Machine Network}
    (serial : c.serial = s.serial) (rest : at_.left.depth = 0)
    (machines : Machines ((h.offers seat).sides (fun f => ¬ ∃ g, (pairs seat).frames f g) c d store
      store') at_ q m m') :
    Apart base (Function.update pairs seat q)
      (Function.update solo seat (Network.resumed seat m' ((solo seat).vacated seat)))
      (Network.resumed seat m (s.vacated seat)) := by
  have grown : s.store.Extends m.common.store := store ▸ machines.kept_left.grown
  have foreign : ∀ f, f = 0 ∨ (¬ ∃ g, (pairs seat).frames f g) ∧ f < s.store.frames.size →
      m.common.store.frames[f]? = s.store.frames[f]? := by
    intro f away
    rw [← store]
    exact machines.kept_left.frames f away
  have foreign' : m'.common.store.frames[0]? = (solo seat).store.frames[0]? := by
    rw [← store']
    exact machines.kept_right.frames 0 (.inl rfl)
  refine h.updated (h.stays.of_root h.new rfl rfl rfl (foreign 0 (.inl rfl)))
    ((h.alone seat).of_root h.new rfl rfl rfl foreign') ?_ (fun other ne => ?_)
    (fun other session ne found => ?_) grown.size ?_ (fun f g paired => (machines.there paired).1)
    fun f g paired other g' ne paired' => ?_
  · change Option.Rel _ ((Association.put seat _ _).lookup seat)
      ((Association.put seat _ _).lookup seat)
    rw [Association.lookup_put, if_pos rfl, Association.lookup_put, if_pos rfl]
    exact .some (Service.sitting_of_machines machines rest rfl rfl rfl rfl)
  · change (Association.put seat _ (Association.erase seat s.idle)).lookup other = _
    rw [Association.lookup_put, if_neg ne, Association.lookup_erase, if_neg ne]
  · refine ⟨grown, fun f lt kept => Store.bindings_congr (foreign f ?_)⟩
    refine (h.paired_of_keeps found (not_not.mp kept)).imp_right fun ⟨g, paired⟩ => ⟨?_, lt⟩
    rintro ⟨g', paired'⟩
    exact ne (h.disjoint other seat f g g' paired paired')
  · exact serial ▸ machines.kept_left.serial
  · refine (machines.own f g paired).1 (.inr ⟨?_, h.there other f g' paired'⟩)
    rintro ⟨g'', paired''⟩
    exact ne (h.disjoint other seat f g' g'' paired' paired'')

end Apart

end Service.Server

/-! ## Messages in any order -/

namespace Network

/-- What is asked of a server for one of its seats. -/
inductive Request where
  /-- a new session -/
  | opens (seat : Seat)
  /-- the answer to a text -/
  | sends (seat : Seat) (text : String)

/-- For whom something is asked. -/
def Request.seat : Request → Seat
  | .opens seat | .sends seat _ => seat

/-- The text of a request has no reserved name. -/
def Request.Avoids : Request → Prop
  | .opens _ => True
  | .sends _ text => Script.Avoids IsReserved text

variable (host : Host Network)

/-- Does what is asked of a server.  Only a text has an answer. -/
def attend (n : Network) (i : Nat) : Request → Network × List (Except Stop String)
  | .opens seat => (n.modifyServer i (·.seated seat), [])
  | .sends seat text => ((evaluate host n i seat text).1, [(evaluate host n i seat text).2])

/-- Does one request after the other, and tells the answers with the seats that get them. -/
def attendAll (n : Network) (i : Nat) : List Request → Network × List (Seat × Except Stop String)
  | [] => (n, [])
  | request :: rest =>
      let (n, answers) := attend host n i request
      let (n, more) := attendAll n i rest
      (n, answers.map (request.seat, ·) ++ more)

/-- The answers that a seat gets. -/
def answersOf (seat : Seat) (answers : List (Seat × Except Stop String)) :
    List (Except Stop String) :=
  (answers.filter (·.1 = seat)).map (·.2)

/-! ### One request -/

theorem evaluate_of_vacant {n : Network} {i : Nat} {s : Server} {seat : Seat} (text : String)
    (found : n.servers[i]? = some s) (vacant : s.idle.lookup seat = none) :
    evaluate host n i seat text = (n, .error .unfinished) := by
  unfold evaluate
  simp only [found]
  unfold running
  simp only [found, vacant]

theorem seatedAgain_found {n : Network} {i : Nat} {s t : Server} {seat : Seat}
    {m : Machine Network} (found : n.servers[i]? = some s)
    (world : m.common.world = n.modifyServer i fun _ => t) :
    (seatedAgain i seat m).servers[i]? = some (resumed seat m t) := by
  rw [seatedAgain, world]
  exact servers_modifyServer (servers_modifyServer found _) _

section Attending

variable {base s : Server} {pairs : Seat → Pairing} {solo : Seat → Server}
  (h : Server.Apart base pairs solo s) {n n' : Network} {i i' : Nat}
  (found : n.servers[i]? = some s)

include h found

theorem opens_apart {seat : Seat} (found' : n'.servers[i']? = some (solo seat)) :
    ∃ q t s', Server.Apart base (Function.update pairs seat q) (Function.update solo seat t) s' ∧
      (n.attend host i (.opens seat)).1.servers[i]? = some s' ∧
      (n'.attend host i' (.opens seat)).1.servers[i']? = some t :=
  ⟨_, _, _, h.seated seat, servers_modifyServer found _, servers_modifyServer found' _⟩

theorem sends_apart {seat : Seat} {text : String} (avoids : Script.Avoids IsReserved text)
    (found' : n'.servers[i']? = some (solo seat)) :
    ∃ q t s', Server.Apart base (Function.update pairs seat q) (Function.update solo seat t) s' ∧
      (evaluate host n i seat text).1.servers[i]? = some s' ∧
      (evaluate host n' i' seat text).1.servers[i']? = some t ∧
      (evaluate host n i seat text).2 = (evaluate host n' i' seat text).2 := by
  cases idle : s.idle.lookup seat with
  | none =>
      have idle' := h.vacant idle
      rw [evaluate_of_vacant host text found idle, evaluate_of_vacant host text found' idle']
      refine ⟨pairs seat, solo seat, s, ?_, found, found', rfl⟩
      rwa [Function.update_eq_self, Function.update_eq_self]
  | some session =>
      obtain ⟨session', idle', sitting⟩ := h.session idle
      have settings : (solo seat).settings = s.settings :=
        (h.alone seat).settings.trans h.stays.settings.symm
      obtain ⟨q, m, m', answer, machines, replied, replied'⟩ := evaluate_alike host host sitting
        (h.offers seat) found found' idle idle' (by rw [settings]) (by rw [settings])
        (fun f => ¬ ∃ g, (pairs seat).frames f g)
        (fun f g paired none => none ⟨g, paired⟩) avoids
      have world := machines.kept_left.world.trans (Server.common_world _ _)
      have world' := machines.kept_right.world.trans (Server.common_world _ _)
      have serial : (n.machineOf i s seat session).common.serial = s.serial :=
        Server.common_serial _ _
      rw [replied, replied']
      exact ⟨q, _, _, h.resumed serial sitting.rest machines,
        seatedAgain_found found world, seatedAgain_found found' world', rfl⟩

theorem attend_apart {request : Request} (avoids : request.Avoids)
    (found' : n'.servers[i']? = some (solo request.seat)) :
    ∃ q t s', Server.Apart base (Function.update pairs request.seat q)
        (Function.update solo request.seat t) s' ∧
      (n.attend host i request).1.servers[i]? = some s' ∧
      (n'.attend host i' request).1.servers[i']? = some t ∧
      (n.attend host i request).2 = (n'.attend host i' request).2 := by
  cases request with
  | opens seat =>
      obtain ⟨q, t, s', apart, there, there'⟩ := opens_apart host h found found'
      exact ⟨q, t, s', apart, there, there', rfl⟩
  | sends seat text =>
      obtain ⟨q, t, s', apart, there, there', same⟩ := sends_apart host h found avoids found'
      exact ⟨q, t, s', apart, there, there', congrArg (fun a => [a]) same⟩

end Attending

theorem attendAll_cons (n : Network) (i : Nat) (request : Request) (rest : List Request) :
    attendAll host n i (request :: rest) =
      ((attendAll host (attend host n i request).1 i rest).1,
        (attend host n i request).2.map (request.seat, ·) ++
          (attendAll host (attend host n i request).1 i rest).2) := rfl

theorem answersOf_same (seat : Seat) (answers : List (Except Stop String))
    (more : List (Seat × Except Stop String)) :
    answersOf seat (answers.map (seat, ·) ++ more) = answers ++ answersOf seat more := by
  unfold answersOf
  rw [List.filter_append, List.map_append]
  congr 1
  induction answers with
  | nil => rfl
  | cons answer answers ih =>
      rw [List.map_cons, List.filter_cons_of_pos (by simp), List.map_cons, ih]

theorem answersOf_other {seat other : Seat} (ne : other ≠ seat)
    (answers : List (Except Stop String)) (more : List (Seat × Except Stop String)) :
    answersOf seat (answers.map (other, ·) ++ more) = answersOf seat more := by
  unfold answersOf
  rw [List.filter_append, List.map_append]
  have none : (answers.map (other, ·)).filter (·.1 = seat) = [] := by
    rw [List.filter_eq_nil_iff]
    intro answer mem
    obtain ⟨_, -, rfl⟩ := List.mem_map.mp mem
    simpa using ne
  rw [none]
  rfl

/-- A seat gets the answers that it gets when it is the only one. -/
theorem attendAll_apart {base : Server} (seat : Seat) (requests : List Request)
    (avoids : ∀ request ∈ requests, request.Avoids) :
    ∀ {s : Server} {pairs : Seat → Pairing} {solo : Seat → Server},
      Server.Apart base pairs solo s → ∀ {n n' : Network} {i i' : Nat},
      n.servers[i]? = some s → n'.servers[i']? = some (solo seat) →
      answersOf seat (n.attendAll host i requests).2 =
          (n'.attendAll host i' (requests.filter (·.seat = seat))).2.map (·.2) ∧
        ∃ s', (n.attendAll host i requests).1.servers[i]? = some s' ∧ s'.Stays base := by
  induction requests with
  | nil => exact fun h _ _ _ _ found _ => ⟨rfl, _, found, h.stays⟩
  | cons request requests ih =>
      intro s pairs solo h n n' i i' found found'
      have ih := @ih fun other mem => avoids other (List.mem_cons_of_mem _ mem)
      have avoids := avoids request List.mem_cons_self
      by_cases own : request.seat = seat
      · subst own
        obtain ⟨q, t, s', apart, there, there', same⟩ := attend_apart host h found avoids found'
        rw [List.filter_cons_of_pos (by simp)]
        have next : Function.update solo request.seat t request.seat = t := Function.update_self ..
        obtain ⟨answers, s'', there, stays⟩ := ih apart there (next.symm ▸ there')
        rw [attendAll_cons, attendAll_cons]
        refine ⟨?_, s'', there, stays⟩
        have bare : ∀ answers : List (Except Stop String),
            (answers.map (request.seat, ·)).map (·.2) = answers := fun answers => by
          rw [List.map_map]
          exact List.map_id answers
        rw [answersOf_same, answers, same, List.map_append, bare]
      · have imagined :
            ({ empty false with servers := #[solo request.seat] } : Network).servers[0]? =
              some (solo request.seat) := rfl
        obtain ⟨q, t, s', apart, there, -, -⟩ := attend_apart host h found avoids imagined
        rw [List.filter_cons_of_neg (by simpa using own)]
        have kept : Function.update solo request.seat t seat = solo seat :=
          Function.update_of_ne (Ne.symm own) ..
        obtain ⟨answers, s'', there, stays⟩ := ih apart there (kept.symm ▸ found')
        rw [attendAll_cons]
        refine ⟨?_, s'', there, stays⟩
        rw [answersOf_other own]
        exact answers

theorem apart_of_new {base : Server} (new : base.IsNew) :
    Server.Apart base (fun _ => Pairing.nothing) (fun _ => base) base where
  new := new
  stays := ⟨rfl, rfl, rfl, rfl⟩
  alone _ := ⟨rfl, rfl, rfl, rfl⟩
  sitting seat := by
    rw [new.idle]
    exact .none
  there _ _ _ := False.elim
  disjoint _ _ _ _ _ := False.elim

/-- The seats of a new server, to which nobody sends a reserved name, cannot tell whether there are
others: each gets the answers that it gets when nothing else is asked of the server as it was made.
And the global scope stays as it was made. -/
theorem seats_isolated {settings : Settings} {registry : Registry} {number : Nat} {s : Server}
    (natural : registry.IsNatural) (made : Server.new settings registry number = .ok s)
    {n n' : Network} {i i' : Nat} (found : n.servers[i]? = some s)
    (found' : n'.servers[i']? = some s) (requests : List Request)
    (avoids : ∀ request ∈ requests, request.Avoids) :
    (∀ seat, answersOf seat (n.attendAll host i requests).2 =
        (n'.attendAll host i' (requests.filter (·.seat = seat))).2.map (·.2)) ∧
      ∃ s', (n.attendAll host i requests).1.servers[i]? = some s' ∧ s'.globals = s.globals ∧
        s'.store.bindings s.globals = s.store.bindings s.globals := by
  have apart := apart_of_new (Server.isNew_of_new natural made)
  refine ⟨fun seat => (attendAll_apart host seat requests avoids apart found found').1, ?_⟩
  obtain ⟨-, s', there, stays⟩ :=
    attendAll_apart host .console requests avoids apart found found'
  exact ⟨s', there, stays.globals, Store.bindings_congr stays.root⟩

/-- Two connections that send by turns, one of which binds a name that the other one looks for. -/
def byTurns : List Request :=
  [.opens (.connection 1), .opens (.connection 2), .sends (.connection 1) "x = 1 x",
    .sends (.connection 2) "x", .sends (.connection 1) "3"]

theorem avoids_of_tokenize {hidden : String → Prop} {source : String} {tokens : List Script.Placed}
    (known : Script.tokenize source = .ok tokens)
    (each : ∀ t ∈ tokens, t.token.Avoids hidden) : Script.Avoids hidden source := by
  intro other cut
  cases known.symm.trans cut
  exact each

theorem byTurns_avoids : ∀ request ∈ byTurns, request.Avoids := by
  have binding : Script.tokenize "x = 1 x" = .ok [⟨.name "x", ⟨1, 1⟩⟩, ⟨.symbol .assign, ⟨1, 3⟩⟩,
      ⟨.int 1, ⟨1, 5⟩⟩, ⟨.name "x", ⟨1, 7⟩⟩, ⟨.finish, ⟨1, 8⟩⟩] := by cbv
  have name : Script.tokenize "x" = .ok [⟨.name "x", ⟨1, 1⟩⟩, ⟨.finish, ⟨1, 2⟩⟩] := by cbv
  have number : Script.tokenize "3" = .ok [⟨.int 3, ⟨1, 1⟩⟩, ⟨.finish, ⟨1, 2⟩⟩] := by cbv
  have plain : ¬ IsReserved "x" := by decide
  intro request mem
  simp only [byTurns, List.mem_cons, List.not_mem_nil, or_false] at mem
  rcases mem with rfl | rfl | rfl | rfl | rfl
  · trivial
  · trivial
  · exact avoids_of_tokenize binding (by simp [Script.Token.Avoids, plain])
  · exact avoids_of_tokenize name (by simp [Script.Token.Avoids, plain])
  · exact avoids_of_tokenize number (by simp [Script.Token.Avoids])

theorem seats_isolated_byTurns :
    ∃ s, Registry.standard.IsNatural ∧ Server.new .loopback .standard 0 = .ok s ∧
      (∀ request ∈ byTurns, request.Avoids) ∧
      let n : Network := { empty true with servers := #[s] }
      (∀ seat, answersOf seat (n.attendAll Network.host 0 byTurns).2 =
          (n.attendAll Network.host 0 (byTurns.filter (·.seat = seat))).2.map (·.2)) ∧
        ∃ s', (n.attendAll Network.host 0 byTurns).1.servers[0]? = some s' ∧
          s'.globals = s.globals ∧ s'.store.bindings s.globals = s.store.bindings s.globals := by
  obtain ⟨s, made⟩ := new_loopback
  refine ⟨s, Registry.standard_isNatural, made, byTurns_avoids, ?_⟩
  intro n
  have found : n.servers[0]? = some s := rfl
  exact seats_isolated Network.host Registry.standard_isNatural made found found byTurns
    byTurns_avoids

end Network

end PeerScript
