import PeerScript.Proofs.Unbound.Servers
import PeerScript.Proofs.Unbound.Steps

/-!
# What a connection has heard

A network arises from the empty one by what those who use it do, and by its own steps.  `Heard`
tells which scripts have been translated on a connection since it was opened, whatever went on
between its messages.

`unbound_of_heard` says that a name which a script of a connection does not find is bound somewhere
in this script or in one that the connection has heard before: a name that none of them binds was
found when the script was translated, and stays bound.
-/

set_option autoImplicit false

namespace PeerScript.Network

open Service (Server Seat)
open Peer (ConnectionId)
open Wire (Bytes Outcome)

variable {n n' : Network} {i : Nat} {id : ConnectionId} {s : Server}
  {session : Session} {a : Account}

/-! ## Networks that arise -/

/-- Servers are added and started, and give themselves a console; somebody connects them with each
other, with remotes, or from outside; connections are entered, left and closed; texts are sent;
lines are typed at consoles; what is under way on links is changed by those outside, and so is all
that the surroundings decide; and the network goes on by itself. -/
inductive Arises : Network → Prop
  | amid (surroundings : Surroundings) : Arises (.amid surroundings)
  | surround {n : Network} (surroundings : Surroundings) : Arises n → Arises { n with surroundings }
  /-- A port is a number of 16 bits. -/
  | addServer {n n' : Network} {settings : Settings} {registry : Registry} {i : Nat} :
      Arises n → settings.bootstrap.port < 65536 → addServer settings registry n =
      .ok i n' → Arises n'
  | start {n : Network} (i : Nat) : Arises n → Arises ((start i).after n)
  | stop {n : Network} (i : Nat) : Arises n → Arises (n.modifyServer i Server.stop)
  | console {n : Network} (i : Nat) : Arises n → Arises (n.modifyServer i (·.seated .console))
  | line {n : Network} (steps i : Nat) (line : String) : Arises n →
      Arises (n.running i .console (answerLine (hostWith (settleFor steps)) line)).1
  | addRemote {n : Network} (replies : List Bytes) : Arises n → Arises (n.addRemote replies).1
  | attach {n n' : Network} {i k : Nat} : Arises n → n.attach i = some (n', k) → Arises n'
  | connect {n : Network} (i : Nat) (host : String) (port : Nat) : Arises n →
      Arises ((connect i host port).after n)
  | enter {n : Network} (i : Nat) (id : Option ConnectionId) : Arises n →
    Arises ((enter i id).after n)
  | leave {n : Network} (i : Nat) : Arises n → Arises ((leave i).after n)
  | close {n : Network} (i : Nat) (id : ConnectionId) : Arises n → Arises (n.close i id).1
  | closeAll {n : Network} (i : Nat) : Arises n → Arises (n.closeAll i)
  | send {n : Network} (i : Nat) (id : Option ConnectionId) (text : String)
    (waits : Bool) : Arises n →
      Arises ((sending i id text waits).after n)
  | link {n : Network} (k : Nat) (change : Link → Link) : Arises n → Arises (n.modifyLink k change)
  | step {n n' : Network} {steps : Nat} : Arises n → step? (hostWith (settleFor steps)) n =
    some n' → Arises n'

theorem Act.Settles.after {α : Type} {act : Act α} (settles : act.Settles a) (h : n.Settled a) :
    (act.after n).Settled a := (settles n h).after

theorem Act.Settles.start (i : Nat) : Act.Settles a (Network.start i) := by
  intro n settled
  unfold Network.start
  cases n.servers[i]? with
  | none => exact settled
  | some s =>
      dsimp only
      cases n.surroundings.bind n.ports n.freePort s.settings.host s.settings.port with
      | ok port =>
          have listening : (n.modifyServer i (·.listen port)).Settled a :=
            settled.aside (fun _ => rfl) (fun _ => rfl) (fun _ => rfl) (fun _ => rfl) (fun _ => rfl)
              (fun _ => rfl) fun _ => rfl
          exact listening.around rfl rfl rfl rfl
      | error failed =>
          obtain ⟨step, reason⟩ := failed
          obtain ⟨detail, cause⟩ := step.fault_cases s.settings.host s.settings.port reason
          dsimp only
          rw [cause]
          exact ⟨settled, fun _ => nofun⟩

/-- One more connection of a server is dropped. -/
theorem drop_noted (found : n.servers[i]? = some s) (t : Peer.Table) (outcomes : List Outcome)
    (id : ConnectionId) (reason : String) :
    (Network.drop { n.modifyPeer i fun _ => t with outcomes } i id reason).1 =
      { n.modifyPeer i fun _ => (t.drop id reason).1 with
        outcomes := outcomes ++ (t.drop id reason).2.1 } := by
  have there : Network.peer { n.modifyPeer i fun _ => t with outcomes } i = t :=
    peer_of_found (servers_modifyServer found _)
  rw [Network.drop, there]
  exact congrArg (fun m : Network => { m with outcomes := outcomes ++ (t.drop id reason).2.1 })
    (modifyServer_modifyServer (n := n) (i := i) (fun s => { s with peer := t })
      fun s => { s with peer := (t.drop id reason).1 })

namespace Settled

theorem amid [a.OfConnections] (surroundings : Surroundings) :
    (Network.amid surroundings).Settled a :=
  ⟨⟨fun _ _ found => (nomatch found), nofun⟩, fun _ _ _ _ seated => (nomatch seated.found),
    fun i rests => absurd rests (Account.OfConnections.free i).1, Account.OfConnections.blank _⟩

variable (h : n.Settled a)

include h

/-- A new server has no sessions. -/
theorem addServer {settings : Settings} {registry : Registry}
    (small : settings.bootstrap.port < 65536)
    (added : Network.addServer settings registry n = .ok i n') : n'.Settled a := by
  have holds := h.holds.incident (.addServer added)
  obtain ⟨server, made, rfl⟩ := addServer_eq_ok added
  have orderly := Server.isOrderly_of_new small made
  have found : ∀ {j : Nat} {s : Server}, (n.servers.push server)[j]? = some s →
      (j = n.servers.size ∧ s = server) ∨ n.servers[j]? = some s := by
    intro j s there
    rw [Array.getElem?_push] at there
    split at there
    · rename_i same
      exact .inl ⟨same, (Option.some.inj there).symm⟩
    · exact .inr there
  refine h.become ⟨fun j s there => ?_, h.outcomes⟩ (fun j seat s session seated => ?_)
    (fun j s session _ seated => ⟨s, session, ?_, seated.idle⟩) holds
  · rcases found there with ⟨rfl, rfl⟩ | there
    · exact orderly
    · exact h.servers j s there
  · rcases found seated.found with ⟨rfl, rfl⟩ | there
    · have idle := seated.idle
      rw [(Server.store_of_new made).2.2.1] at idle
      cases idle
    · have before : n.Seated j seat s session := ⟨there, seated.idle⟩
      exact .inl ⟨s, s, session, before, seated, .refl _ _⟩
  · obtain ⟨lt, there⟩ := Array.getElem?_eq_some_iff.mp seated.found
    exact there ▸ Array.getElem?_push_lt lt

theorem attach {k : Nat} (attached : n.attach i = some (n', k)) : n'.Settled a := by
  have holds := h.holds.incident (.attach attached)
  have accepted := h.bare.accept (.server i) ⟨trivial, trivial⟩
  obtain rfl := attach_eq_some attached
  have joined : ((n.accept (.server i)).1.join .outside (n.accept (.server i)).2).Settled
      (a.withLedger .blank) := accepted.of_servers rfl accepted.outcomes ⟨trivial, trivial⟩
  exact joined.withLedger holds

theorem closeAll (i : Nat) : (n.closeAll i).Settled a := by
  cases found : n.servers[i]? with
  | none =>
      have blank : n.peer i = .new 0 := peer_of_absent found
      have empty : (Peer.Table.new 0).dropAll = (.new 0, []) := by
        simp only [Peer.Table.dropAll, Peer.Table.ids, Peer.Table.new, List.map_nil,
          List.mergeSort_nil, List.foldl_nil]
      have still : n.modifyPeer i (fun _ => .new 0) = n := modifyServer_of_absent found
      have same : n.closeAll i = n := by
        rw [Network.closeAll, blank, empty]
        dsimp only
        rw [still, List.append_nil]
      rw [same]
      exact h
  | some s =>
      refine List.foldlRecOn (motive := fun r : Peer.Table × List Outcome =>
        Settled a { n.modifyPeer i fun _ => r.1 with outcomes := n.outcomes ++ r.2 })
        (n.peer i).ids _ ?_ fun r settled id _ => ?_
      · have same : n.modifyPeer i (fun _ => n.peer i) = n :=
          modifyServer_eq_self fun s found => by rw [peer_of_found found]
        rw [same, List.append_nil]
        exact h
      · have dropped := settled.drop (i := i) id Wire.connectionClosed
        rw [drop_noted found, List.append_assoc] at dropped
        exact dropped

end Settled

/-- Whatever happens to a network, it is settled. -/
theorem Arises.settled [a.OfConnections] (h : n.Arises) : n.Settled a := by
  have free : ∀ i, a.IsFree i := Account.OfConnections.free
  induction h with
  | amid surroundings => exact .amid surroundings
  | surround surroundings _ ih => exact ih.around rfl rfl rfl rfl
  | addServer _ small added ih => exact ih.addServer small added
  | start i _ ih => exact (Act.Settles.start i).after ih
  | stop i _ ih => exact ih.stop i
  | console i _ ih => exact ih.console (free i)
  | line steps i line _ ih =>
      exact ih.runs_line (settled_settleFor steps a) (proceeds_settleFor steps) (free i) line
  | addRemote replies _ ih => exact ih.around rfl rfl rfl rfl
  | attach _ attached ih => exact ih.attach attached
  | connect i host port _ ih => exact (ih.connect (Account.OfConnections.blank _)).after
  | enter i id _ ih => exact (Act.Settles.enter i id).after ih
  | leave i _ ih => exact (Act.Settles.leave i).after ih
  | close i id _ ih => exact ih.drop id _
  | closeAll i _ ih => exact ih.closeAll i
  | send i id text waits _ ih => exact (Act.Settles.sending i id text waits).after ih
  | link k change _ ih => exact ih.modifyLink k change (Account.OfConnections.blank _)
  | step _ step ih => exact ih.step (settled_settleFor _) step

/-- In every network that arises each server has only its own objects. -/
theorem Arises.owned (h : n.Arises) : n.Owned := (Arises.settled (a := .silent) h).owned

/-! ## Histories -/

/-- The script of a message, if it can be translated. -/
def scriptsIn (n : Network) (i : Nat) (id : ConnectionId) (s : Server) (session : Session)
    (text : String) :
    List Tree :=
  match translation s.settings.language text (n.machineOf i s (.connection id) session) with
  | .ok (t, _) => [t]
  | .error _ => []

/-- The scripts that have been translated on a connection since it was opened.  Between two messages
anything may happen that leaves the session on its seat and the frames that it keeps as they are. -/
inductive Heard (i : Nat) (id : ConnectionId) : Network → List Tree → Prop
  | opened {n : Network} {s : Server} : n.Sound → n.servers[i]? = some s →
      Heard i id (n.modifyServer i (·.seated (.connection id))) []
  | message {n : Network} {s : Server} {session : Session} {scripts : List Tree} (steps : Nat)
    (text : String) :
      Heard i id n scripts → n.Seated i (.connection id) s session →
      Heard i id (evaluate (hostWith (settleFor steps)) n i (.connection id) text).1
        (scripts ++ n.scriptsIn i id s session text)
  | meanwhile {n n' : Network} {scripts : List Tree} : Heard i id n scripts →
      n.Meanwhile i (.connection id) n' → n'.Sound → Heard i id n' scripts

/-- Every connection has a history. -/
def Account.heard : Account where
  tells
    | i, .connection id, n => ∃ scripts, Heard i id n scripts
    | _, .console, _ => True
  rests _ := False
  opened sound found := ⟨[], .opened sound found⟩
  message steps text := fun ⟨_, heard⟩ seated => ⟨_, heard.message steps text seated⟩
  meanwhile {_ _ _ seat} tells between sound :=
    match seat, tells, between with
    | .connection _, ⟨scripts, heard⟩, between => ⟨scripts, heard.meanwhile between sound⟩
    | .console, _, _ => trivial

instance : Account.heard.OfConnections :=
  ⟨fun _ => ⟨nofun, fun _ => trivial⟩, fun _ => ⟨trivial, trivial⟩⟩

/-- One of the scripts binds the name somewhere. -/
def Binds (scripts : List Tree) (name : String) : Prop := ∃ t ∈ scripts, name ∈ t.defines

theorem Seated.unique {seat : Seat} {s' : Server} {session' : Session}
    (h : n.Seated i seat s session) (h' : n.Seated i seat s' session') :
    s' = s ∧ session' = session := by
  obtain rfl : s = s' := Option.some.inj (h.found.symm.trans h'.found)
  exact ⟨rfl, Option.some.inj (h'.idle.symm.trans h.idle)⟩

theorem Sound.silent (h : n.Sound) : n.Settled .silent :=
  ⟨h, fun _ _ _ _ _ => trivial, nofun, trivial, trivial⟩

/-- In the session of a connection only those names are late that its scripts bind. -/
theorem Heard.rests {scripts : List Tree} (h : Heard i id n scripts) : n.Sound ∧
    ∃ s session, n.Seated i (.connection id) s session ∧
    session.Rests i (Binds scripts) s.store := by
  induction h with
  | @opened n s sound found =>
      refine ⟨(sound.silent.seatedAt _ (fun _ _ => trivial) ⟨trivial, trivial⟩).toSound, _, _,
        ⟨servers_modifyServer found _, (Association.lookup_put ..).trans (if_pos rfl)⟩, ?_⟩
      exact ((sound.servers i s found).rests_seated _).2
  | @message n s session scripts steps text _ seated ih =>
      obtain ⟨sound, t, other, seated', rests⟩ := ih
      obtain ⟨rfl, rfl⟩ := seated.unique seated'
      have earlier : ∀ name, Binds scripts name →
          Binds (scripts ++ n.scriptsIn i id t other text) name :=
        fun name ⟨u, mem, defines⟩ => ⟨u, List.mem_append_left _ mem, defines⟩
      have ran := sound.silent.evaluate (settled_settleFor steps _) (proceeds_settleFor steps)
        (Account.allows_connection fun _ _ => Ledger.holds_no_link _ _) seated
        (rests.mono earlier) text ?_ trivial
      · exact ⟨ran.1.toSound, ran.2⟩
      · intro u serial translated name defines
        refine ⟨u, List.mem_append_right _ ?_, defines⟩
        rw [scriptsIn, translated]
        exact List.mem_singleton_self u
  | @meanwhile n n' scripts _ between sound ih =>
      obtain ⟨-, t, other, seated', rests⟩ := ih
      obtain ⟨s, s', session, seated, after, spared⟩ := between
      obtain ⟨rfl, rfl⟩ := seated.unique seated'
      exact ⟨sound, s', _, after, rests.spared spared⟩

/-- In every network that arises, each connection has a history, and whichever it is: if a message
to the connection is translated and its script then fails for want of a name, this script or one
that has been heard before binds the name somewhere. -/
theorem unbound_of_heard (h : n.Arises) (seated : n.Seated i (.connection id) s session) :
    (∃ scripts, Heard i id n scripts) ∧ ∀ scripts, Heard i id n scripts →
      ∀ (steps : Nat) (text : String) (t : Tree) (serial : Nat) (name : String)
        (m : Machine Network),
        translation s.settings.language text (n.machineOf i s (.connection id) session) =
          .ok (t, serial) → runScript (hostWith (settleFor steps)) t.bare
          ((n.machineOf i s (.connection id) session).numbered serial) = .error
    (.failed (.unbound name)) m → name ∈ t.defines ∨ Binds scripts name := by
  have settled : n.Settled .heard := h.settled
  refine ⟨settled.told i id s session seated,
    fun scripts heard steps text t serial name m translated failed => ?_⟩
  obtain ⟨sound, s', session', seated', rests⟩ := heard.rests
  obtain ⟨rfl, rfl⟩ := seated.unique seated'
  have more : session'.Rests i (fun name => name ∈ t.defines ∨ Binds scripts name) s'.store :=
    rests.mono fun _ => .inr
  exact sound.silent.late_of_unbound (settled_settleFor steps _) (proceeds_settleFor steps)
    (Account.allows_connection fun _ _ => Ledger.holds_no_link _ _) seated more translated
    (fun _ => .inl) failed

/-! ## A script that does not find its own name -/

/-- A server by itself to which somebody outside has connected. -/
def visited : Option Network :=
  match addServer .loopback .standard (.empty true) with
  | .ok i n => (((start i).after n).attach i).map (·.1)
  | .error _ _ => none

theorem arises_visited (made : visited = some n) : n.Arises := by
  unfold visited at made
  split at made
  · rename_i i n' added
    obtain ⟨⟨_, k⟩, attached, rfl⟩ := Option.map_eq_some_iff.mp made
    have arises : n'.Arises := .addServer (.amid .loopback) (by decide) added
    exact .attach (arises.start i) attached
  · exact nomatch made

/-- The tree of a statement that binds a name to itself. -/
def selfish : Tree := .bind "x" (.reference ⟨["x"]⟩)

theorem translation_selfish {σ : Type} (m : Machine σ) :
    translation .pi "x = x" m = .ok (.sequence [selfish], m.common.serial) := by
  have cut : Script.tokenize "x = x" = .ok [⟨.name "x", ⟨1, 1⟩⟩, ⟨.symbol .assign, ⟨1, 3⟩⟩,
      ⟨.name "x", ⟨1, 5⟩⟩, ⟨.finish, ⟨1, 6⟩⟩] := by cbv
  rw [translation, Script.parse, cut]
  rfl

/-- The value is looked for before the name is bound. -/
theorem runScript_selfish {σ : Type} (host : Host σ) {m : Machine σ}
    (unseen : m.common.store.get? m.session.ambient "x" = none) :
    ∃ m', runScript host selfish m = .error (.failed (.unbound "x")) m' := by
  have looked : lookup "x" m.session.ambient m = .error (.failed (.unbound "x")) m := by
    unfold lookup
    rw [Run.bind_of_ok Run.get_eq]
    simp only [unseen]
    rfl
  have failed : ∀ inside, evalTree host inside selfish m.session.ambient m =
      .error (.failed (.unbound "x")) m := by
    intro inside
    rw [selfish, Tree.bind, evalTree_applied host inside (by decide), Run.bind_of_ok Run.height_eq]
    refine Run.bind_of_error ?_
    rw [evalTrees, evalTree, resolve]
    exact Run.bind_of_error (Run.bind_of_error (Run.bind_of_error looked))
  have ran : eval host selfish m = .error (.failed (.unbound "x")) m := failed _
  rw [runScript, ran]
  exact ⟨_, rfl⟩

set_option maxRecDepth 20000 in
theorem visited_unseen : (visited.bind fun n => n.servers[0]?.bind fun s =>
    (s.idle.lookup (.connection 1)).map fun session =>
      (s.settings.language, (s.store.get? session.ambient "x").isSome)) = some (.pi, false) := by
  decide +kernel

/-- A connection gets a script that binds a name to itself, and does not find the name. -/
theorem unbound_of_heard_self :
    ∃ (n : Network) (s : Server) (session : Session) (t : Tree) (serial : Nat)
    (m : Machine Network) (scripts : List Tree), n.Arises ∧
    n.Seated 0 (.connection 1) s session ∧ Heard 0 1 n scripts ∧
    translation s.settings.language "x = x" (n.machineOf 0 s (.connection 1) session) =
      .ok (t, serial) ∧
    runScript host t.bare ((n.machineOf 0 s (.connection 1) session).numbered serial) =
      .error (.failed (.unbound "x")) m ∧ ("x" ∈ t.defines ∨ Binds scripts "x") := by
  obtain ⟨n, made, reached⟩ := Option.bind_eq_some_iff.mp visited_unseen
  obtain ⟨s, found, reached⟩ := Option.bind_eq_some_iff.mp reached
  obtain ⟨session, idle, reached⟩ := Option.map_eq_some_iff.mp reached
  obtain ⟨language, unseen⟩ := Prod.mk.inj reached
  have arises := arises_visited made
  have seated : n.Seated 0 (.connection 1) s session := ⟨found, idle⟩
  obtain ⟨scripts, heard⟩ := (arises.settled (a := .heard)).told 0 1 s session seated
  have translated := translation_selfish (n.machineOf 0 s (.connection 1) session)
  rw [← language] at translated
  obtain ⟨m, failed⟩ := runScript_selfish host
    (m := (n.machineOf 0 s (.connection 1) session).numbered
      (n.machineOf 0 s (.connection 1) session).common.serial)
    (by
      change (n.machineOf 0 s (.connection 1) session).common.store.get? session.ambient "x" = none
      rw [store_machineOf]
      simpa using unseen)
  exact ⟨n, s, session, _, _, m, scripts, arises, seated, heard, translated, failed,
    (unbound_of_heard arises seated).2 scripts heard patience _ _ _ _ _ translated failed⟩

end PeerScript.Network
