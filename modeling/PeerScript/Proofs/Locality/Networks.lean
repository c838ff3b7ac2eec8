import PeerScript.Proofs.Isolation
import PeerScript.Proofs.Locality
import PeerScript.Proofs.Networks
import PeerScript.Proofs.Shorthands

/-!
# Where the scripts of a server write

The objects `peer` and `server` never go back into the machine that calls them, but a request waits
for the rest of the network, and meanwhile other sessions of the same server run scripts of their
own.  These write in their own scopes, and in frames that are made meanwhile.

`Proceeds` says this of a network and what has become of it.  Every step of a network proceeds, and
so does the network while a session waits; hence the two objects keep to the law of their server.
What the objects do themselves is `Idles`: no session runs, and nothing is written.
-/

set_option autoImplicit false

namespace PeerScript

open Service (Server Seat PeerCall ServerCall peerName serverName)
open Peer (ConnectionId)
open Wire (Bytes)

/-- Everything, and of objects those of the server of the number. -/
def Kit.ofServer (i : Nat) : Kit where
  native _ := True
  object o := o = ⟨peerName, i⟩ ∨ o = ⟨serverName, i⟩
  path _ := True
  call _ := True

theorem Kit.ofServer_hasPaths (i : Nat) : (Kit.ofServer i).HasPaths := fun _ _ => ⟨trivial, trivial⟩

/-- The same without what makes a session wait. -/
def Kit.unwaiting (i : Nat) : Kit :=
  { Kit.ofServer i with call := fun path => path.segments.getLast? ≠ some "Request" }

/-- Only a method of one name makes a session wait. -/
theorem Service.PeerCall.eq_request {method text : String} {args : List Value}
    {id : Option ConnectionId} (asks : PeerCall.ofArgs method args = .ok (.request id text)) :
    method = "Request" := by
  unfold PeerCall.ofArgs Except.map at asks
  split at asks
  all_goals
    repeat' split at asks
    all_goals first | rfl | exact nomatch asks

/-! ## Answers -/

section Answers

variable {σ : Type} {law : Law σ} {writes : FrameId → Prop} {host : Host σ} {m : Machine σ}

theorem Run.Spares.caught {r : Run σ Unit} (h : Run.Spares law writes (fun _ => True) r m) :
    Run.Spares law writes (fun _ => True) (Run.caught r) m := by
  have step := Run.caught_eq r m
  rcases h.after with ⟨_, m', ran, spares, -⟩ | ⟨stop, m', ran, spares⟩
  · rw [ran] at step
    exact .ok step spares trivial
  · rw [ran] at step
    cases stop with
    | failed fault => exact .ok step spares trivial
    | broken => exact .error step spares
    | unfinished => exact .error step spares

theorem spares_parsed (paths : law.kit.HasPaths) (obeys : m.Obeys law) (language : Script.Language)
    (text : String) : Run.Spares law writes
      (fun result : Except Fault Tree => ∀ t, result = .ok t → t.Within law.kit)
      (parsed language text) m := by
  have step := parsed_eq language text (m := m)
  cases translated : translation language text m with
  | error fault =>
      rw [translated] at step
      exact .ok step obeys.refl nofun
  | ok read =>
      rw [translated] at step
      refine .ok step (obeys.spares obeys.stack rfl rfl rfl) fun t same => ?_
      cases same
      exact (Script.parse_settles translated).1.within paths

theorem spares_runScript (keeps : host.IsLocal law) (obeys : m.Obeys law) {t : Tree}
    (within : t.Within law.kit) :
    Run.Spares law (· = m.session.ambient) (fun _ => True) (runScript host t) m := by
  have ran := (localized keeps m.levels).tree t m.session.ambient m within obeys
  have step := runScript_eq host t m
  rw [evalIn] at step
  rcases ran.after with ⟨_, m', ended, spares, -⟩ | ⟨stop, m', ended, spares⟩
  · rw [ended] at step
    exact .ok step spares trivial
  · rw [ended] at step
    cases stop with
    | failed fault =>
        refine .error step (spares.trans (spares.obeys.spares ?_ rfl rfl rfl))
        exact List.forall_mem_cons.mpr ⟨(Value.IsData.str _).within _, spares.stack⟩
    | broken => exact .error step spares
    | unfinished => exact .error step spares

/-- Answering a message writes in the scope of the session. -/
theorem spares_answer (paths : law.kit.HasPaths) (keeps : host.IsLocal law) (obeys : m.Obeys law)
    (language : Script.Language) (policy : StackPolicy) (text : String) :
    Run.Spares law (· = m.session.ambient) (fun _ => True)
      (answer host language policy text) m := by
  refine .andThen (spares_parsed paths obeys language text) fun result m₁ spares within => ?_
  have written : ∀ {m₂ : Machine σ}, m₂.Obeys law →
      Run.Spares law (· = m.session.ambient) (fun _ => True) (do
        let m ← get
        if policy = .consumeOnReply then modify (·.withStack [])
        return (host.encoder m).script m.session.values) m₂ := by
    intro m₂ obeys₂
    refine .ok (answer_end host policy m₂) ?_ trivial
    unfold Machine.answered
    split
    · exact obeys₂.withStack (List.forall_mem_nil _)
    · exact obeys₂.refl
  cases result with
  | error fault =>
      exact .bind (.push spares.obeys ((Value.IsData.str _).within _)) fun _ _ obeys₂ _ =>
        written obeys₂
  | ok t =>
      have ran := spares_runScript keeps spares.obeys (within t rfl).bare
      rw [spares.ambient] at ran
      exact .bind ran.caught fun _ _ obeys₂ _ => written obeys₂

/-- A line writes in the scope of its session. -/
theorem spares_answerLine (paths : law.kit.HasPaths) (keeps : host.IsLocal law)
    (obeys : m.Obeys law) (line : String) :
    Run.Spares law (· = m.session.ambient) (fun _ => True) (answerLine host line) m := by
  refine .andThen (spares_parsed paths obeys .rho line) fun result m₁ spares within => ?_
  cases result with
  | error fault => exact .pure spares.obeys trivial
  | ok t =>
      have ran := spares_runScript keeps spares.obeys (within t rfl).bare
      rw [spares.ambient] at ran
      refine .bind ran.caught fun _ _ obeys₂ _ => ?_
      exact .bind (.get obeys₂) fun _ _ obeys₃ _ => .pure obeys₃ trivial

end Answers

/-! ## Servers -/

/-- Frames without bindings are new, and that is all. -/
structure Store.Adds (s t : Store) : Prop extends s.Extends t where
  bindings : ∀ f, t.bindings f = s.bindings f

namespace Store.Adds

variable {s t u : Store}

theorem refl (s : Store) : s.Adds s := ⟨.refl s, fun _ => rfl⟩

theorem trans (h : s.Adds t) (k : t.Adds u) : s.Adds u :=
  ⟨h.toExtends.trans k.toExtends, fun f => (k.bindings f).trans (h.bindings f)⟩

theorem spares (h : s.Adds t) (writes : FrameId → Prop) : s.Spares writes t :=
  ⟨h.toExtends, fun f _ _ => h.bindings f⟩

theorem within {kit : Kit} (h : s.Adds t) (within : s.Within kit) : t.Within kit := by
  intro f name v found
  rw [local?, h.bindings] at found
  exact within f name v found

theorem alloc (s : Store) (parent : Option FrameId) : s.Adds (s.alloc parent).1 where
  toExtends := (s.widens_alloc parent).toExtends
  bindings f := by
    rcases Nat.lt_trichotomy f s.frames.size with lt | rfl | gt
    · exact bindings_congr (frames_alloc_of_lt parent lt)
    · rw [bindings_alloc, bindings_of_le (Nat.le_refl _)]
    · rw [bindings_of_le (Nat.le_of_lt gt), bindings_of_le]
      rw [size_alloc]
      exact gt

end Store.Adds

namespace Service.Server

variable {i : Nat} {s s' s'' : Server}

/-- The frame is the scope of a session that does not run. -/
def Seats (s : Server) (f : FrameId) : Prop := ∃ entry ∈ s.idle, entry.2.ambient = f

/-- Of objects, the frames and the sessions that do not run hold only those of the number. -/
structure Owns (i : Nat) (s : Server) : Prop where
  bound : s.store.Within (.ofServer i)
  idle : ∀ entry ∈ s.idle, ∀ v ∈ entry.2.stack, v.Within (.ofServer i)

/-- What may become of a server while no session of it runs: nothing is written, and a session that
is new has an empty stack and a new scope. -/
structure Idles (s s' : Server) : Prop where
  store : s.store.Adds s'.store
  idle : ∀ entry ∈ s'.idle, entry ∈ s.idle ∨ entry.2.stack = [] ∧
    s.store.frames.size ≤ entry.2.ambient

namespace Idles

/-- Nothing is written, and no session is new. -/
theorem of_idle (store : s'.store = s.store) (idle : s'.idle ⊆ s.idle) : s.Idles s' :=
  ⟨store ▸ .refl _, fun _ mem => .inl (idle mem)⟩

theorem refl (s : Server) : s.Idles s := of_idle rfl (List.Subset.refl _)

theorem trans (h : s.Idles s') (k : s'.Idles s'') : s.Idles s'' where
  store := h.store.trans k.store
  idle entry mem := by
    rcases k.idle entry mem with old | ⟨stack, new⟩
    · exact h.idle entry old
    · exact .inr ⟨stack, Nat.le_trans h.store.size new⟩

/-- A session is new, and so is its scope. -/
theorem seated (s : Server) (seat : Seat) : s.Idles (s.seated seat) where
  store := .alloc s.store (some s.globals)
  idle entry mem := by
    rcases List.mem_cons.mp mem with rfl | mem
    · exact .inr ⟨rfl, Nat.le_refl _⟩
    · exact .inl (List.mem_of_mem_filter mem)

theorem owns (h : s.Idles s') (owns : s.Owns i) : s'.Owns i where
  bound := h.store.within owns.bound
  idle entry mem v on := by
    rcases h.idle entry mem with old | new
    · exact owns.idle entry old v on
    · rw [new.1] at on
      exact absurd on List.not_mem_nil

end Idles

/-- What may become of a server when sessions of it run that have not run: they write in their
scopes and in new frames, and the scopes of new sessions are new. -/
structure Becomes (i : Nat) (s s' : Server) : Prop where
  owns : s'.Owns i
  store : s.store.Spares s.Seats s'.store
  seats : ∀ f, s'.Seats f → s.Seats f ∨ s.store.frames.size ≤ f

theorem Idles.becomes (h : s.Idles s') (owns : s.Owns i) : s.Becomes i s' where
  owns := h.owns owns
  store := h.store.spares _
  seats := fun _ ⟨entry, mem, same⟩ =>
    (h.idle entry mem).imp (fun old => ⟨entry, old, same⟩) fun ⟨_, new⟩ => same ▸ new

theorem Becomes.trans (h : s.Becomes i s') (k : s'.Becomes i s'') : s.Becomes i s'' where
  owns := k.owns
  store := h.store.trans k.store fun f lt seats => (h.seats f seats).resolve_right
    (Nat.not_le_of_lt lt)
  seats f seats := by
    rcases k.seats f seats with seats | new
    · exact h.seats f seats
    · exact .inr (Nat.le_trans h.store.size new)

end Service.Server

/-! ## Networks -/

namespace Network

variable {n n' n'' : Network} {i : Nat} {which : Nat → Prop}

/-- Every server owns only its own objects. -/
def Owned (n : Network) : Prop := ∀ (i : Nat) (s : Server), n.servers[i]? = some s → s.Owns i

/-- What may become of a network while no session runs. -/
structure Idles (n n' : Network) : Prop where
  size : n'.servers.size = n.servers.size
  server : ∀ (i : Nat) (s s' : Server), n.servers[i]? = some s →
    n'.servers[i]? = some s' → s.Idles s'

/-- What may become of a network, as far as some of its servers are concerned. -/
structure Proceeds (which : Nat → Prop) (n n' : Network) : Prop where
  size : n'.servers.size = n.servers.size
  server : ∀ (i : Nat) (s s' : Server), which i → n.servers[i]? = some s →
    n'.servers[i]? = some s' → s.Becomes i s'

/-- The servers of a network are in another one of the same size. -/
theorem server_of_size (size : n'.servers.size = n.servers.size) {s' : Server}
    (found : n'.servers[i]? = some s') : ∃ s, n.servers[i]? = some s := by
  obtain ⟨lt, -⟩ := Array.getElem?_eq_some_iff.mp found
  exact ⟨_, Array.getElem?_eq_getElem (size ▸ lt)⟩

namespace Idles

theorem of_servers (same : n'.servers = n.servers) : n.Idles n' where
  size := congrArg Array.size same
  server i s s' found found' := by
    rw [same, found] at found'
    cases found'
    exact .refl s

theorem refl (n : Network) : n.Idles n := of_servers rfl

theorem trans (h : n.Idles n') (k : n'.Idles n'') : n.Idles n'' where
  size := k.size.trans h.size
  server i s s'' found found'' := by
    obtain ⟨s', found'⟩ := server_of_size k.size found''
    exact (h.server i s s' found found').trans (k.server i s' s'' found' found'')

/-- One server is changed. -/
theorem modifyServer {change : Server → Server}
    (idles : ∀ s, n.servers[i]? = some s → s.Idles (change s)) :
    n.Idles (n.modifyServer i change) where
  size := Array.size_modify
  server j s s' found found' := by
    by_cases same : j = i
    · subst same
      rw [servers_modifyServer found] at found'
      cases found'
      exact idles s found
    · rw [Network.modifyServer, Array.getElem?_modify, if_neg (Ne.symm same), found] at found'
      cases found'
      exact .refl s

/-- Neither the frames nor the sessions of the server are changed. -/
theorem modified {change : Server → Server} (store : ∀ s, (change s).store = s.store)
    (idle : ∀ s, (change s).idle ⊆ s.idle) : n.Idles (n.modifyServer i change) :=
  modifyServer fun s _ => .of_idle (store s) (idle s)

theorem modifyPeer (n : Network) (change : Peer.Table → Peer.Table) :
    n.Idles (n.modifyPeer i change) :=
  modified (fun _ => rfl) fun _ => List.Subset.refl _

theorem modifyLink (n : Network) (k : Nat) (change : Link → Link) :
    n.Idles (n.modifyLink k change) :=
  of_servers rfl

theorem vacated (n : Network) (seat : Seat) : n.Idles (n.modifyServer i (·.vacated seat)) :=
  modified (fun _ => rfl) fun _ _ => List.mem_of_mem_filter

theorem drop (n : Network) (i : Nat) (id : ConnectionId) (reason : String) :
    n.Idles (n.drop i id reason).1 :=
  have changed : n.Idles (n.modifyPeer i fun _ => ((n.peer i).drop id reason).1) := modifyPeer n _
  ⟨changed.size, changed.server⟩

theorem hangUp (n : Network) (k : Nat) (side : Side) (i : Nat) (id : ConnectionId)
    (reason : String) :
    n.Idles (n.hangUp k side i id reason) :=
  ((drop n i id reason).trans (vacated (i := i) _ (.connection id))).trans (modifyLink _ k _)

end Idles

namespace Proceeds

theorem trans (h : n.Proceeds which n') (k : n'.Proceeds which n'') : n.Proceeds which n'' where
  size := k.size.trans h.size
  server i s s'' among found found'' := by
    obtain ⟨s', found'⟩ := server_of_size k.size found''
    exact (h.server i s s' among found found').trans (k.server i s' s'' among found' found'')

theorem owned (h : n.Proceeds (fun _ => True) n') : n'.Owned := fun i s' found' => by
  obtain ⟨s, found⟩ := server_of_size h.size found'
  exact (h.server i s s' trivial found found').owns

theorem mono {fewer : Nat → Prop} (h : n.Proceeds which n') (less : ∀ i, fewer i → which i) :
    n.Proceeds fewer n' :=
  ⟨h.size, fun i s s' among => h.server i s s' (less i among)⟩

end Proceeds

/-- A network that idles proceeds. -/
theorem Idles.proceeds (h : n.Idles n') (owned : n.Owned) : n.Proceeds which n' :=
  ⟨h.size, fun i s s' _ found found' => (h.server i s s' found found').becomes (owned i s found)⟩

theorem Proceeds.refl (owned : n.Owned) : n.Proceeds which n := (Idles.refl n).proceeds owned

/-- A network goes on idly. -/
theorem Proceeds.idly (h : n.Proceeds (fun _ => True) n') (k : n'.Idles n'') :
    n.Proceeds (fun _ => True) n'' := h.trans (k.proceeds h.owned)

/-! ## What scripts do to a network -/

/-- Whichever way the act ends, no session has run. -/
def Act.Idles {α : Type} (act : Act α) : Prop :=
  ∀ n : Network, match act n with
    | .ok _ n' | .error _ n' => n.Idles n'

namespace Act.Idles

variable {α β : Type}

theorem bind {act : Act α} {next : α → Act β} (h : Idles act) (rest : ∀ a, Idles (next a)) :
    Idles (act >>= next) := by
  intro n
  have first := h n
  have step : (act >>= next) n = (match act n with
    | .ok a n' => next a n'
    | .error fault n' => .error fault n') := by
    change EStateM.bind act next n = _
    rw [EStateM.bind]
    cases act n <;> rfl
  rw [step]
  cases ran : act n with
  | error fault n₁ =>
      rw [ran] at first
      exact first
  | ok a n₁ =>
      rw [ran] at first
      have second := rest a n₁
      dsimp only at second ⊢
      cases ran' : next a n₁ with
      | ok b n₂ =>
          rw [ran'] at second
          exact first.trans second
      | error fault n₂ =>
          rw [ran'] at second
          exact first.trans second

theorem entered (i : Nat) : Idles (Network.entered i) := by
  intro n
  unfold Network.entered
  cases (n.peer i).enteredOrFault <;> exact .refl n

theorem boundPort (i : Nat) : Idles (Network.boundPort i) := by
  intro n
  unfold Network.boundPort
  cases n.servers[i]?.bind Server.port <;> exact .refl n

theorem leave (i : Nat) : Idles (Network.leave i) := fun n => .modifyPeer n _

theorem enter (i : Nat) (id : Option ConnectionId) : Idles (Network.enter i id) := by
  intro n
  unfold Network.enter
  cases (n.peer i).enter id with
  | error fault => exact .refl n
  | ok entered => exact .modifyPeer n _

theorem queue (n : Network) (i : Nat) (id : ConnectionId) (waits : Bool) :
    n.Idles (n.queue i id waits) :=
  have changed :
      n.Idles (n.modifyPeer i (·.pushSlot id (if waits then some n.nextTicket else none))) :=
    .modifyPeer n _
  ⟨changed.size, changed.server⟩

theorem send (i : Nat) (id : ConnectionId) (text : String) (waits : Bool) :
    Idles (Network.send i id text waits) := by
  intro n
  unfold Network.send
  cases (n.peer i).remote id with
  | error fault => exact .refl n
  | ok remote =>
      dsimp only
      cases n.write remote.link (Text.Utf8.encode text) with
      | error fault => exact (queue n i id waits).trans (.drop _ i id _)
      | ok frame =>
          have written :=
            (queue n i id waits).trans (.modifyLink _ remote.link (·.write .opener frame))
          exact written.trans (.modifyPeer _ _)

theorem sending (i : Nat) (id : Option ConnectionId) (text : String) (waits : Bool) :
    Idles (Network.sending i id text waits) := by
  cases id with
  | some id => exact send i id text waits
  | none => exact bind (entered i) fun id => send i id text waits

theorem accept (n : Network) (target : Target) : n.Idles (n.accept target).1 := by
  cases target with
  | elsewhere => exact .refl n
  | remote port replies => exact .of_servers rfl
  | server j =>
      cases found : n.servers[j]? with
      | none =>
          rw [accept_absent found]
          exact .refl n
      | some s =>
          rw [accept_server found]
          have added : n.Idles (n.modifyPeer j fun _ => (s.peer.add none).1) := .modifyPeer n _
          exact added.trans (.modifyServer fun s _ => .seated s _)

theorem connect (i : Nat) (host : String) (port : Nat) : Idles (Network.connect i host port) := by
  intro n
  unfold Network.connect
  cases n.reach host port with
  | error fault => exact .refl n
  | ok target =>
      have added :
          n.Idles (n.modifyPeer i fun _ => ((n.peer i).add (some ⟨n.links.size, .empty⟩)).1) :=
        .modifyPeer n _
      exact (added.trans (accept _ target)).trans (.of_servers rfl)

end Act.Idles

/-! ## How a network goes on -/

/-- What a session of a server does when it runs: it answers a message, or a line. -/
def Answers (host : Host Network) (act : Run Network String) : Prop :=
  (∃ language policy text, act = answer host language policy text) ∨
    ∃ line, act = answerLine host line

/-- A network goes on: one after another sessions run, whichever they are and whatever they answer,
and in between anything happens without them.  While a session waits, the network goes on
likewise. -/
inductive Goes : Network → Network → Prop
  | rest (n : Network) : Goes n n
  | idles {n n' n'' : Network} : n.Idles n' → Goes n' n'' → Goes n n''
  | run {settle : Network → Network} {n n' : Network} {act : Run Network String} (i : Nat)
    (seat : Seat) :
      (∀ m, Goes m (settle m)) → Answers (hostWith settle) act → Goes (n.running i seat act).1 n' →
      Goes n n'

namespace Goes

theorem trans (h : n.Goes n') (k : n'.Goes n'') : n.Goes n'' := by
  induction h with
  | rest => exact k
  | idles idles _ ih => exact .idles idles (ih k)
  | run i seat waits answers _ _ ih => exact .run i seat waits answers (ih k)

theorem of_idles (h : n.Idles n') : n.Goes n' := .idles h (.rest n')

/-- A network goes on idly. -/
theorem idly (h : n.Goes n') (k : n'.Idles n'') : n.Goes n'' := h.trans (of_idles k)

end Goes

/-- What becomes of the frames of a server while a session of it waits. -/
def Waited (settle : Network → Network) (i : Nat) (s t : Store) : Prop :=
  ∃ (n : Network) (u u' : Server), n.Owned ∧
    n.servers[i]? = some u ∧ (settle n).servers[i]? = some u' ∧ u.store = s ∧ u'.store = t

/-! ## The law of a server -/

/-- What a session of a server gets at is its own, and others write in the scopes of the sessions
that do not run. -/
def law (settle : Network → Network) (i : Nat) : Law Network where
  kit := .ofServer i
  sound := Owned
  elsewhere n f := ∃ s, n.servers[i]? = some s ∧ s.Seats f
  meanwhile := Waited settle i
  passes := Proceeds (· ≠ i)
  refl _ := .refl
  trans _ _ _ := .trans

section Sharing

variable {settle : Network → Network} {c : Common Network}

/-- The network with the frames that a running session has. -/
theorem owned_withShared (obeys : c.Obeys (law settle i)) : (withShared i c).Owned := by
  intro j s found
  by_cases same : j = i
  · subst same
    obtain ⟨t, found'⟩ := server_of_size (n := c.world) Array.size_modify found
    rw [withShared, servers_modifyServer found'] at found
    cases found
    exact ⟨obeys.bound, (obeys.world j t found').idle⟩
  · rw [withShared, modifyServer, Array.getElem?_modify, if_neg (Ne.symm same)] at found
    exact obeys.world j s found

/-- The server of a session, before and after the network has become another one. -/
theorem sharedIn_cases (size : n.servers.size = c.world.servers.size) :
    (n.servers[i]? = none ∧ sharedIn i c n = { c with world := n }) ∨
    ∃ s s', c.world.servers[i]? = some s ∧ (withShared i c).servers[i]? = some (s.reclaim c) ∧
      n.servers[i]? = some s' ∧ sharedIn i c n =
        { c with store := s'.store, serial := s'.serial, printed := s'.printed, world := n } := by
  cases found : n.servers[i]? with
  | none => exact .inl ⟨rfl, by rw [sharedIn, found]⟩
  | some s' =>
      obtain ⟨s, there⟩ := server_of_size (n := c.world) size found
      exact .inr ⟨s, s', there, servers_modifyServer there _, rfl, by rw [sharedIn, found]⟩

theorem adds_sharedIn (idles : (withShared i c).Idles n) : c.store.Adds (sharedIn i c n).store := by
  have size : n.servers.size = c.world.servers.size := idles.size.trans Array.size_modify
  rcases sharedIn_cases size with ⟨-, shared⟩ | ⟨s, s', -, before, after, shared⟩
  · rw [shared]
    exact .refl _
  · rw [shared]
    exact (idles.server i _ s' before after).store

/-- What a session shares with others when the network has proceeded. -/
theorem spares_sharedIn (obeys : c.Obeys (law settle i)) {writes : FrameId → Prop}
    (proceeds : (withShared i c).Proceeds (fun _ => True) n)
    (course : ∀ writes, c.store.Course (Waited settle i) writes (sharedIn i c n).store) :
    c.Spares (law settle i) writes (sharedIn i c n) := by
  have size : n.servers.size = c.world.servers.size := proceeds.size.trans Array.size_modify
  have passes : c.world.Proceeds (· ≠ i) n := by
    refine ⟨size, fun j s s' ne found found' => proceeds.server j s s' trivial ?_ found'⟩
    rw [withShared, modifyServer, Array.getElem?_modify, if_neg (Ne.symm ne)]
    exact found
  rcases sharedIn_cases size with ⟨gone, shared⟩ | ⟨s, s', there, before, after, shared⟩
  · rw [shared]
    refine ⟨⟨obeys.bound, proceeds.owned⟩, .refl _ _, fun _ _ => .refl, ?_, passes⟩
    rintro f ⟨t, found, -⟩
    cases gone.symm.trans found
  · have becomes := proceeds.server i _ s' trivial before after
    rw [shared] at course ⊢
    refine ⟨⟨becomes.owns.bound, proceeds.owned⟩, ?_, fun _ _ => course _, ?_, passes⟩
    · exact becomes.store.mono fun f _ seats => .inr ⟨s, there, seats⟩
    · rintro f ⟨t, there', seats⟩
      obtain rfl : s' = t := Option.some.inj (after.symm.trans there')
      exact (becomes.seats f seats).imp_left fun seats => ⟨s, there, seats⟩

end Sharing

/-! ## What the objects do -/

/-- The law allows what a session of the server makes of the network while none runs. -/
structure Bears (law : Law Network) (i : Nat) : Prop where
  shared : ∀ {c : Common Network} {n : Network}, c.Obeys law → (withShared i c).Idles n →
    c.Spares law (fun _ => False) (sharedIn i c n)
  stop : ∀ {c : Common Network}, c.Obeys law →
    c.Spares law (fun _ => False) { c with world := c.world.modifyServer i Server.stop }

theorem bears_law (settle : Network → Network) (i : Nat) : Bears (law settle i) i where
  shared obeys idles :=
    spares_sharedIn obeys (idles.proceeds (owned_withShared obeys)) fun _ =>
      .single (.inl ((adds_sharedIn idles).spares _))
  stop {c} obeys := by
    have idles : c.world.Idles (c.world.modifyServer i Server.stop) :=
      .modified (fun _ => rfl) fun _ => List.Subset.refl _
    have stopped : c.world.Proceeds (fun _ => True) (c.world.modifyServer i Server.stop) :=
      idles.proceeds obeys.world
    refine ⟨⟨obeys.bound, stopped.owned⟩, .refl _ _, fun _ _ => .refl, ?_,
      stopped.mono fun _ _ => trivial⟩
    rintro f ⟨t, there, seats⟩
    obtain ⟨s, found⟩ := server_of_size stopped.size there
    rw [servers_modifyServer found] at there
    cases there
    exact .inl ⟨s, found, seats⟩

theorem bears_alone (kit : Kit) (i : Nat) : Bears (.alone Network kit) i where
  shared obeys idles := by
    have adds := adds_sharedIn idles
    exact {
      obeys := ⟨adds.within obeys.bound, trivial⟩
      store := adds.spares _
      course := fun _ _ => .single (.inl (adds.spares _))
      elsewhere := fun _ => False.elim
      passes := trivial }
  stop obeys := ⟨⟨obeys.bound, trivial⟩, .refl _ _, fun _ _ => .refl, fun _ => False.elim, trivial⟩

section Methods

variable {law : Law Network} {m : Machine Network}

theorem spares_whole {writes : FrameId → Prop} {d : Common Network} (obeys : m.Obeys law)
    (spares : m.whole.Spares law writes d) : m.common.Spares law writes d :=
  have same : m.common.Spares law writes m.whole := .of_eq obeys.common rfl rfl
  same.trans spares

variable (bears : Bears law i)

include bears

theorem local_acting {α : Type} {act : Act α} (idles : act.Idles) {next : α → Method Network}
    (obeys : m.Obeys law)
    (rest : ∀ a (m' : Machine Network), m'.Obeys law → (next a).IsLocal law m') :
    (acting i act next).IsLocal law m := by
  have whole : m.whole.Obeys law := ⟨obeys.common.bound, obeys.common.world⟩
  have acted := idles (withShared i m.whole)
  change (match act (withShared i m.whole) with
    | .ok a n => Method.change (sharedIn i · n) (next a)
    | .error fault n => .change (sharedIn i · n) (.fail fault)).IsLocal law m
  have changed : ∀ {n' : Network}, (withShared i m.whole).Idles n' →
      m.common.Spares law (fun _ => False) (sharedIn i m.whole n') ∧
        (m.changed (sharedIn i m.whole n')).Obeys law := by
    intro n' idles
    have spares : m.whole.Spares law (fun _ => False) (sharedIn i m.whole n') :=
      bears.shared whole idles
    exact ⟨spares_whole obeys spares, obeys.stack, spares.obeys.bound, spares.obeys.world⟩
  cases ran : act (withShared i m.whole) with
  | ok a n' =>
      rw [ran] at acted
      obtain ⟨spares, obeys'⟩ := changed acted
      exact ⟨spares, rest a _ obeys'⟩
  | error fault n' =>
      rw [ran] at acted
      exact ⟨(changed acted).1, trivial⟩

variable {settle : Network → Network}

theorem local_peerMethod (call : PeerCall)
    (waits : ∀ id text, call = .request id text → ∀ (session : Session) {c : Common Network},
      c.Obeys law → c.Spares law (fun _ => False) (whileWaiting settle i session c))
    (obeys : m.Obeys law) : (peerMethod settle i call).IsLocal law m := by
  have number : ∀ id, (Service.valueOfId id).Within law.kit :=
    fun id => (Value.IsData.int _).within _
  cases call with
  | connect host port =>
    exact local_acting bears (.connect i host port) obeys fun id _ _ => number id
  | enter id => exact local_acting bears (.enter i id) obeys fun id _ _ => number id
  | leave =>
      change (acting i (Network.leave i) fun left => .give (.bool left.isSome)).IsLocal law m
      exact local_acting bears (.leave i) obeys fun _ _ _ => (Value.IsData.bool _).within _
  | execute text => exact local_acting bears (.sending i none text false) obeys fun _ _ _ => trivial
  | executeTree t => exact local_acting bears (.sending i none _ false) obeys fun _ _ _ => trivial
  | clients =>
      exact (Value.IsData.list ((m.common.world.peer i).clients.map fun client =>
        Service.valueOfId client.id)).within law.kit
  | request id text =>
      refine local_acting bears (.sending i id text true) obeys fun ticket m' obeys' => ?_
      have whole : m'.whole.Obeys law := ⟨obeys'.common.bound, obeys'.common.world⟩
      refine ⟨spares_whole obeys' (waits id text rfl m'.session whole), ?_⟩
      unfold Method.IsLocal
      dsimp only
      split
      · exact (Value.IsData.str _).within _
      · trivial
      · trivial

/-- The objects of a server keep to a law that bears what they do, and under which a session may
wait. -/
theorem isLocal_of_bears (own : ∀ o, law.kit.object o → o.serial = i)
    (waits : ∀ receiver, law.kit.call ⟨receiver ++ ["Request"]⟩ →
      ∀ (session : Session) {c : Common Network}, c.Obeys law →
        c.Spares law (fun _ => False) (whileWaiting settle i session c)) :
    (hostWith settle).IsLocal law where
  member world o name v _ found := by
    have found : (if o.typeName = peerName ∧ name = "Entered" then
        some (((world.peer o.serial).entered.map Service.valueOfId).getD (.bool false)) else none) =
      some v := found
    split at found
    · cases found
      cases (world.peer o.serial).entered with
      | none => exact (Value.IsData.bool _).within _
      | some id => exact (Value.IsData.int _).within _
    · exact nomatch found
  method o receiver name args m seen calls obeys := by
    obtain rfl := own o seen
    change (if o.typeName = peerName then _ else _ : Method Network).IsLocal _ m
    split
    · split
      · rename_i call asks
        refine local_peerMethod bears call (fun id text same => ?_) obeys
        subst same
        obtain rfl := Service.PeerCall.eq_request asks
        exact waits receiver calls
      · trivial
    · split
      · rename_i call _
        cases call with
        | port =>
          exact local_acting bears (.boundPort _) obeys fun _ _ _ => (Value.IsData.int _).within _
        | stop =>
            have whole : m.whole.Obeys law := ⟨obeys.common.bound, obeys.common.world⟩
            exact ⟨spares_whole obeys (bears.stop whole), trivial⟩
      · trivial

end Methods

/-- Who never waits is alone. -/
theorem isLocal_unwaiting (settle : Network → Network) (i : Nat) :
    (hostWith settle).IsLocal (.alone Network (.unwaiting i)) := by
  refine isLocal_of_bears (bears_alone _ i) ?_ fun receiver calls => ?_
  · rintro o (rfl | rfl) <;> rfl
  · refine absurd ?_ calls
    simp

section Waiting

variable {settle : Network → Network}
  (settles : ∀ n : Network, n.Owned → n.Proceeds (fun _ => True) (settle n))

include settles

/-- What others have made of the network while a session waited. -/
theorem spares_whileWaiting {c : Common Network} (obeys : c.Obeys (law settle i))
    (session : Session) {writes : FrameId → Prop} :
    c.Spares (law settle i) writes (whileWaiting settle i session c) := by
  unfold whileWaiting
  split
  · exact .of_eq obeys rfl rfl
  · rename_i before _
    have awaiting : (withShared i c).Idles ((withShared i c).modifyServer i (·.awaiting session)) :=
      .modified (fun _ => rfl) fun _ => List.Subset.refl _
    have waits : (withShared i c).Proceeds (fun _ => True) _ :=
      awaiting.proceeds (owned_withShared obeys)
    let back (s : Server) : Server := { s with held := before.held, watched := before.watched }
    have resumed : (settle ((withShared i c).modifyServer i (·.awaiting session))).Idles
        ((settle ((withShared i c).modifyServer i (·.awaiting session))).modifyServer i back) :=
      .modified (fun _ => rfl) fun _ => List.Subset.refl _
    have proceeds := (waits.trans (settles _ waits.owned)).idly resumed
    refine spares_sharedIn obeys proceeds fun writes => ?_
    rcases sharedIn_cases (proceeds.size.trans Array.size_modify) with
      ⟨-, shared⟩ | ⟨s, s', -, held, after, shared⟩
    · rw [shared]
    · obtain ⟨u, left⟩ := server_of_size (n := settle _) Array.size_modify after
      rw [servers_modifyServer left] at after
      cases after
      rw [shared]
      exact .single (.inr ⟨_, _, u, waits.owned, servers_modifyServer held _, left, rfl, rfl⟩)

/-- While the network goes on, the objects of a server keep to its law. -/
theorem isLocal_waiting (i : Nat) : (hostWith settle).IsLocal (law settle i) := by
  refine isLocal_of_bears (bears_law settle i) ?_ fun _ _ session _ obeys => ?_
  · rintro o (rfl | rfl) <;> rfl
  · exact spares_whileWaiting settles obeys session

end Waiting

/-! ## Sessions that run -/

section Running

variable {settle : Network → Network} {s : Server} {seat : Seat} {session : Session}

theorem mem_of_idle (idle : s.idle.lookup seat = some session) : (seat, session) ∈ s.idle := by
  obtain ⟨before, after, split, -⟩ := List.lookup_eq_some_iff.mp idle
  rw [split]
  exact List.mem_append_right _ List.mem_cons_self

theorem world_machineOf : (n.machineOf i s seat session).common.world =
    n.modifyServer i fun _ => s.vacated seat := Server.common_world _ _

theorem store_machineOf : (n.machineOf i s seat session).common.store = s.store :=
  Server.common_store _ _

variable (found : n.servers[i]? = some s) (idle : s.idle.lookup seat = some session)

include found idle

/-- The server to which a session goes back has become what its scripts may make of it. -/
theorem becomes_resumed {m : Machine Network} {w : Server}
    (spares : (n.machineOf i s seat session).Spares (law settle i) (· = session.ambient) m)
    (left : m.common.world.servers[i]? = some w) : s.Becomes i (resumed seat m w) := by
  have seated : s.Seats session.ambient := ⟨_, mem_of_idle idle, rfl⟩
  have others : ∀ f, (law settle i).elsewhere (n.machineOf i s seat session).common.world f →
      s.Seats f := by
    rintro f ⟨t, there, entry, mem, same⟩
    rw [world_machineOf, servers_modifyServer found] at there
    cases there
    exact ⟨entry, List.mem_of_mem_filter mem, same⟩
  have store : (n.machineOf i s seat session).common.store = s.store := store_machineOf
  refine ⟨⟨spares.common.obeys.bound, fun entry mem => ?_⟩, ?_, ?_⟩
  · rcases List.mem_cons.mp mem with rfl | mem
    · exact spares.stack
    · exact (spares.obeys.common.world i w left).idle entry (List.mem_of_mem_filter mem)
  · have written := spares.common.store
    rw [store] at written
    exact written.mono fun f _ may => may.elim (fun same => same ▸ seated) (others f)
  · rintro f ⟨entry, mem, rfl⟩
    rcases List.mem_cons.mp mem with rfl | mem
    · exact .inl (spares.ambient ▸ seated)
    · have scope := spares.common.elsewhere _ ⟨w, left, entry, List.mem_of_mem_filter mem, rfl⟩
      rw [store] at scope
      exact scope.imp_left (others _)

omit idle

variable (owned : n.Owned)

include owned

theorem proceeds_machineOf {which : Nat → Prop} :
    n.Proceeds which (n.machineOf i s seat session).common.world := by
  rw [world_machineOf]
  refine Idles.proceeds (.modifyServer fun t there => ?_) owned
  obtain rfl : s = t := Option.some.inj (found.symm.trans there)
  exact .of_idle rfl fun _ => List.mem_of_mem_filter

include idle

theorem obeys_machineOf : (n.machineOf i s seat session).Obeys (law settle i) where
  stack := (owned i s found).idle _ (mem_of_idle idle)
  common := {
    bound := store_machineOf ▸ (owned i s found).bound
    world := (proceeds_machineOf found owned).owned }

theorem proceeds_seatedAgain {m : Machine Network}
    (spares : (n.machineOf i s seat session).Spares (law settle i) (· = session.ambient) m) :
    n.Proceeds (fun _ => True) (seatedAgain i seat m) where
  size := by
    have vacant : n.Proceeds (fun _ => True) (n.machineOf i s seat session).common.world :=
      proceeds_machineOf found owned
    exact Array.size_modify.trans (spares.common.passes.size.trans vacant.size)
  server j t t' _ there there' := by
    by_cases same : j = i
    · subst same
      obtain rfl : s = t := Option.some.inj (found.symm.trans there)
      obtain ⟨w, left⟩ := server_of_size (n := m.common.world) Array.size_modify there'
      rw [seatedAgain, servers_modifyServer left] at there'
      cases there'
      exact becomes_resumed found idle spares left
    · rw [seatedAgain, modifyServer, Array.getElem?_modify, if_neg (Ne.symm same)] at there'
      refine spares.common.passes.server j t t' same ?_ there'
      rw [world_machineOf, modifyServer, Array.getElem?_modify, if_neg (Ne.symm same)]
      exact there

end Running

/-! ## Everybody writes at home -/

section

variable {settle : Network → Network} {host : Host Network} {act : Run Network String}

theorem spares_answers (keeps : host.IsLocal (law settle i)) (answers : Answers host act)
    {m : Machine Network} (obeys : m.Obeys (law settle i)) :
    Run.Spares (law settle i) (· = m.session.ambient) (fun _ => True) act m := by
  have paths := Kit.ofServer_hasPaths i
  rcases answers with ⟨language, policy, text, rfl⟩ | ⟨line, rfl⟩
  · exact spares_answer paths keeps obeys language policy text
  · exact spares_answerLine paths keeps obeys line

/-- A session writes in its scope while it runs, and its scope stays where it is. -/
theorem proceeds_running (keeps : ∀ i, host.IsLocal (law settle i)) (answers : Answers host act)
    (owned : n.Owned) (i : Nat) (seat : Seat) :
    n.Proceeds (fun _ => True) (n.running i seat act).1 := by
  cases found : n.servers[i]? with
  | none =>
      have step : n.running i seat act = (n, .error .unfinished) := by
        simp only [running, found]
      rw [step]
      exact .refl owned
  | some s =>
      cases idle : s.idle.lookup seat with
      | none =>
          have step : n.running i seat act = (n, .error .unfinished) := by
            simp only [running, found, idle]
          rw [step]
          exact .refl owned
      | some session =>
          have ran := spares_answers (keeps i) answers (obeys_machineOf found idle owned)
          rw [running_eq found idle]
          rcases ran.after with ⟨reply, m, ended, spares, -⟩ | ⟨stop, m, ended, spares⟩
          · rw [ended]
            exact proceeds_seatedAgain found idle owned spares
          · rw [ended]
            exact proceeds_seatedAgain found idle owned spares

end

/-- However a network goes on, sessions write only in their scopes. -/
theorem Goes.proceeds (h : n.Goes n') (owned : n.Owned) : n.Proceeds (fun _ => True) n' := by
  induction h with
  | rest => exact .refl owned
  | idles idles _ ih =>
      have first : Proceeds (fun _ => True) _ _ := idles.proceeds owned
      exact first.trans (ih first.owned)
  | run i seat goes answers _ waits ih =>
      have first := proceeds_running (isLocal_waiting waits) answers owned i seat
      exact first.trans (ih first.owned)

/-! ## Steps of a network -/

section Steps

variable {settle : Network → Network} (goes : ∀ n, Goes n (settle n))

include goes

theorem goes_evaluate (n : Network) (i : Nat) (seat : Seat) (text : String) :
    n.Goes (evaluate (hostWith settle) n i seat text).1 := by
  unfold evaluate
  cases n.servers[i]? with
  | none => exact .rest n
  | some s => exact .run i seat goes (.inl ⟨_, _, text, rfl⟩) (.rest _)

theorem goes_receive {α : Type} (write : Bytes → Except Fault α) (n : Network) (i : Nat)
    (id : ConnectionId) (text : String) :
    n.Goes (receive (hostWith settle) write n i id text).1 := by
  have ran : n.Goes (evaluate (hostWith settle) (n.modifyPeer i (·.noteReceived id text)) i
      (.connection id) text).1 := .idles (.modifyPeer n _) (goes_evaluate goes _ _ _ _)
  unfold receive
  generalize evaluate (hostWith settle) (n.modifyPeer i (·.noteReceived id text)) i
    (.connection id) text = result at ran ⊢
  obtain ⟨n', stop | reply⟩ := result
  · exact ran
  · dsimp only at ran ⊢
    cases write (Text.Utf8.encode reply) with
    | error fault => exact ran.idly (.modifyPeer n' _)
    | ok a =>
        have sent : n.Goes (n'.modifyPeer i (·.noteSent id reply)) := ran.idly (.modifyPeer n' _)
        exact sent.idly (.modifyPeer _ _)

theorem goes_serveStep (k : Nat) (side : Side) (i : Nat) (id : ConnectionId) (arrival : Arrival)
    (step : serveStep? (hostWith settle) n k side i id arrival = some n') : n.Goes n' := by
  unfold serveStep? at step
  split at step
  · exact nomatch step
  cases arrival with
  | pending => exact nomatch step
  | ended fault =>
      cases step
      exact .of_idles (.hangUp n k side i id _)
  | message bytes rest =>
      have taken : n.Idles (n.modifyLink k (·.leave side rest)) := .modifyLink n k _
      have received :=
        Goes.idles taken (goes_receive goes ((n.modifyLink k (·.leave side rest)).write k)
        (n.modifyLink k (·.leave side rest)) i id (textOf bytes))
      dsimp only at step
      split at step
      · rename_i n₁ _ _ known
        rw [known] at received
        cases step
        exact received.idly (.modifyLink n₁ k _)
      · rename_i n₁ _ _ known
        rw [known] at received
        cases step
        exact received.idly (.hangUp n₁ k side i id _)
      · rename_i n₁ stop known
        rw [known] at received
        have vacated : n.Goes (n₁.modifyServer i (·.vacated (.connection id))) :=
          received.idly (.vacated n₁ _)
        split at step
        · cases step
          exact vacated
        · cases step
          exact vacated.idly (.modifyLink _ k _)

end Steps

theorem Idles.readStep (k : Nat) (side : Side) (i : Nat) (id : ConnectionId) (arrival : Arrival)
    (step : n.readStep? k side i id arrival = some n') : n.Idles n' := by
  cases arrival with
  | pending => exact nomatch step
  | ended fault =>
      cases step
      exact (drop n i id _).trans (.modifyLink _ k _)
  | message bytes rest =>
      cases step
      have changed : n.Idles (n.modifyPeer i fun _ => ((n.peer i).respond id (textOf bytes)).1) :=
        .modifyPeer n _
      exact changed.trans (.of_servers rfl)

theorem Idles.remoteStep (k : Nat) (side : Side) (replies : List Bytes) (arrival : Arrival)
    (step : n.remoteStep? k side replies arrival = some n') : n.Idles n' := by
  cases arrival with
  | pending => exact nomatch step
  | ended fault =>
      cases step
      exact modifyLink n k _
  | message bytes rest =>
      cases replies with
      | nil =>
          cases step
          exact modifyLink n k _
      | cons reply more =>
          cases step
          exact modifyLink n k _

theorem goes_endStep {settle : Network → Network} (goes : ∀ n, Goes n (settle n))
    (k : Nat) (side : Side) (step : endStep? (hostWith settle) n k side = some n') : n.Goes n' := by
  unfold endStep? at step
  split at step
  · exact nomatch step
  split at step
  · split at step
    · exact nomatch step
    · exact .of_idles (.remoteStep k side _ _ step)
    · rename_i i id _
      split at step
      · cases step
        exact .of_idles ((Idles.vacated n _).trans (.modifyLink _ k _))
      · exact .of_idles (.readStep k side _ _ _ step)
      · exact goes_serveStep goes k side _ _ _ step
  · exact nomatch step

theorem goes_step {settle : Network → Network} (goes : ∀ n, Goes n (settle n))
    (step : step? (hostWith settle) n = some n') : n.Goes n' := by
  obtain ⟨k, -, found⟩ := List.exists_of_findSome?_eq_some step
  obtain ⟨side, -, found⟩ := List.exists_of_findSome?_eq_some found
  exact goes_endStep goes k side found

/-- However long the ends of links go on, the network does. -/
theorem goes_settleFor (steps : Nat) (n : Network) : n.Goes (settleFor steps n) := by
  induction steps generalizing n with
  | zero => exact .rest n
  | succ steps ih =>
      rw [settleFor]
      split
      · exact .rest n
      · rename_i n' step
        exact (goes_step ih step).trans (ih n')

theorem proceeds_settleFor (steps : Nat) (n : Network) (owned : n.Owned) :
    n.Proceeds (fun _ => True) (settleFor steps n) :=
  (goes_settleFor steps n).proceeds owned

/-! ## New servers -/

/-- The global scope of a server binds the builtins and its own objects, until the shorthands are
bound. -/
theorem within_globalsOf {kit : Kit} (native : ∀ b, kit.native b) (peer : kit.object ⟨peerName, i⟩)
    (server : kit.object ⟨serverName, i⟩) : (Service.globalsOf i).Within kit := by
  have nothing : Store.empty.Within kit := by
    intro f name v found
    exact absurd (Store.lt_of_local? found) (Nat.not_lt_zero f)
  have installed : (Builtin.install (Store.empty.alloc none).1 0).Within kit := by
    refine (nothing.alloc none).setAll 0 fun b mem => ?_
    obtain ⟨builtin, -, rfl⟩ := List.mem_map.mp mem
    rw [Value.Within]
    exact native builtin
  refine (installed.set 0 peerName ?_).set 0 serverName ?_
  · rwa [Value.Within]
  · rwa [Value.Within]

/-- A new server has the builtins, its own objects, and functions that have been read. -/
theorem owns_new {settings : Settings} {registry : Registry} {s : Server}
    (made : Server.new settings registry i = .ok s) : s.Owns i := by
  have globals : (Service.globalsOf i).Within (.ofServer i) :=
    within_globalsOf (fun _ => trivial) (.inl rfl) (.inr rfl)
  obtain ⟨-, -, idle, -, -, serial, folded⟩ := Server.store_of_new made
  refine ⟨?_, fun entry mem => by rw [idle] at mem; exact nomatch mem⟩
  refine Service.shorthands_keep (P := Store.Within (.ofServer i)) _
    (fun sh _ state state' within bound => ?_) globals folded
  obtain ⟨body, parsed, store⟩ := Service.body_of_bindShorthand bound
  rw [store]
  refine within.set 0 sh.1 ?_
  rw [Value.Within]
  exact (Script.parse_settles parsed).1.within (Kit.ofServer_hasPaths i)

/-- Nothing in a new server makes a session wait. -/
theorem unwaiting_new {settings : Settings} {registry : Registry} {s : Server}
    (made : Server.new settings registry i = .ok s) (small : settings.bootstrap.port < 65536) :
    s.store.Within (.unwaiting i) := by
  obtain ⟨t, made', -, store⟩ := Service.new_shorthands settings registry i small
  obtain rfl : s = t := Except.ok.inj (made.symm.trans made')
  have globals : (Service.globalsOf i).Within (.unwaiting i) :=
    within_globalsOf (fun _ => trivial) (.inl rfl) (.inr rfl)
  rw [store]
  refine (((globals.set 0 "connect" ?_).set 0 "enter" ?_).set 0 "join" ?_).set 0 "leave" ?_
  all_goals
    simp [Service.connecting, Service.calling, Service.joining, Script.Rho.Expression.tree,
      Script.Rho.Expression.trees, Value.Within, Tree.sequence, Tree.invoke, Tree.op, Tree.Within,
      Tree.AllWithin, Head.Within, Kit.unwaiting]

/-! ## Writes -/

/-- The frames in which the sessions of a server write that do not run. -/
def Writes (n : Network) (i : Nat) (f : FrameId) : Prop := ∃ s, n.servers[i]? = some s ∧ s.Seats f

/-- Whether it can get at no objects or at those of its server, a machine writes only where its
trees run, and functions that are called write only in frames of their own.

A script that asks another server for something waits for the answer, and meanwhile other sessions
of its server may run, in any order and for any time.  These changes are told apart: `Course` is
made of writes of the script itself, which are as before, and of what goes on while it waits.
Together they reach no frame that was there but the scope of the tree and the scopes of the sessions
that may run.  Trees without such a question are alone. -/
theorem writes_local :
    (∀ (σ : Type) (host : Host σ) (m : Machine σ), m.Within .objectless →
      m.WritesLocally host .objectless Store.Spares) ∧
    (∀ (settle : Network → Network) (i : Nat) (m : Machine Network), m.Within (.unwaiting i) →
      m.WritesLocally (hostWith settle) (.unwaiting i) Store.Spares) ∧
    ∀ (settle : Network → Network), (∀ n, Goes n (settle n)) →
      ∀ (i : Nat) (m : Machine Network), m.Within (.ofServer i) → m.common.world.Owned →
        m.WritesLocally (hostWith settle) (.ofServer i) (Store.Changes (Waited settle i)) ∧
        m.WritesLocally (hostWith settle) (.ofServer i) fun writes =>
          Store.Spares fun f => writes f ∨ m.common.world.Writes i f := by
  refine ⟨fun σ host m within => within.writesLocally host, fun settle i m within => ?_, ?_⟩
  · exact (isLocal_unwaiting settle i).writesLocally_alone within
  · intro settle goes i m within owned
    have keeps := isLocal_waiting (fun n owned => (goes n).proceeds owned) i
    have obeys : m.Obeys (law settle i) := ⟨within.stack, within.bound, owned⟩
    constructor
    · exact keeps.writesLocally obeys fun spares => spares.changes
    · exact keeps.writesLocally obeys fun spares => spares.store

/-- A script that makes a function, calls it, and asks for the connections. -/
def callingTree : Tree :=
  .sequence
    [.bind "f" (.literal (.closure ["x"] (.sequence [.bind "y" (.reference ⟨["x"]⟩)]) none)),
      .invoke ⟨["f"]⟩ [.literal (.int 1)],
      .invoke ⟨["peer", "Clients"]⟩ []]

/-- A script that asks another server for something. -/
def askingTree : Tree :=
  .bind "x" (.invoke ⟨["peer", "Request"]⟩ [.literal (.int 1), .literal (.str "1")])

/-- What the scripts bind, the other connections and the console do not see. -/
theorem writes_local_globals : ∃ s, Server.new .loopback .standard 0 = .ok s ∧
    ∀ t ∈ [callingTree, askingTree],
      ((evalIn host t s.store.frames.size).left (firstMachine s)).common.store.bindings 0 =
        (firstMachine s).common.store.bindings 0 := by
  obtain ⟨s, made⟩ := new_loopback
  have isNew := Server.isNew_of_new Registry.standard_isNatural made
  have owned : (serving s).Owned := by
    have alone : ({ empty false with servers := #[s] } : Network).Owned := by
      intro j t found
      obtain ⟨lt, rfl⟩ := Array.getElem?_eq_some_iff.mp found
      obtain rfl : j = 0 := Nat.lt_one_iff.mp lt
      exact owns_new made
    have seated : Idles _ (serving s) := .modifyServer fun _ _ => .seated _ _
    have proceeds : Proceeds (fun _ => True) _ (serving s) := seated.proceeds alone
    exact proceeds.owned
  have found : (serving s).servers[0]? = some (s.seated (.connection 1)) := rfl
  have idle : (s.seated (.connection 1)).idle.lookup (.connection 1) =
      some (.new s.registry s.store.frames.size) := rfl
  have obeys : (firstMachine s).Obeys (law settle 0) := obeys_machineOf found idle owned
  have store : (firstMachine s).common.store = (s.seated (.connection 1)).store := store_machineOf
  have global : 0 < (firstMachine s).common.store.frames.size := by
    rw [store]
    exact Nat.lt_of_lt_of_eq (Nat.succ_pos _) (Store.size_alloc (some s.globals)).symm
  have other : 0 ≠ s.store.frames.size :=
    fun same => absurd isNew.store.nonempty (same ▸ Nat.lt_irrefl _)
  refine ⟨s, made, fun t mem => ?_⟩
  simp only [List.mem_cons, List.not_mem_nil, or_false] at mem
  rcases mem with rfl | rfl
  · have bound : (firstMachine s).common.store.Within (.unwaiting 0) := by
      rw [store]
      exact (unwaiting_new made (by decide)).alloc (some s.globals)
    have alone : (firstMachine s).Within (.unwaiting 0) := ⟨List.forall_mem_nil _, bound⟩
    have within : callingTree.Within (.unwaiting 0) := by
      simp [callingTree, Tree.sequence, Tree.bind, Tree.invoke, Tree.Within,
        Tree.AllWithin, Head.Within, Value.Within, Kit.unwaiting, Kit.ofServer]
    have spares := (writes_local.2.1 settle 0 _ alone).tree callingTree s.store.frames.size within
    exact spares.bindings 0 global other
  · have within : askingTree.Within (.ofServer 0) := by
      simp [askingTree, Tree.bind, Tree.invoke, Tree.Within, Tree.AllWithin,
        Head.Within, Value.Within, Kit.ofServer]
    have local_ := writes_local.2.2 settle (goes_settleFor patience) 0 (firstMachine s)
      ⟨obeys.stack, obeys.common.bound⟩ obeys.common.world
    refine (local_.2.tree askingTree s.store.frames.size within).bindings 0 global ?_
    rintro (same | ⟨t, there, entry, mem, -⟩)
    · exact other same
    · rw [firstMachine, world_machineOf, servers_modifyServer found] at there
      cases there
      simp [Server.vacated, Server.seated, Association.erase, Association.put, isNew.idle] at mem

end Network

end PeerScript
