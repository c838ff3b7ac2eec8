import PeerScript.Proofs.Incidents.Views

/-!
# Regular networks

In a regular network every end of a link that a server holds belongs to one of its connections, and
no connection holds two ends; every remote writes at an end of its own; a request waits on one
connection until it has ended; and nothing was heard on a connection that is still to come.
Whatever happens keeps a network regular.
-/

set_option autoImplicit false

namespace PeerScript

open Service (Server Seat IsReserved)
open Peer (ConnectionId Remote)
open Wire (Outcome Slot Ticket)

/-- By names that are not reserved the global scope of a server offers builtins. -/
structure Service.Server.OffersBuiltins (s : Server) : Prop where
  globals : s.globals = 0
  nonempty : 0 < s.store.frames.size
  top : s.store.parent? 0 = none
  builtins : OffersAlike IsReserved (s.store.bindings 0) (s.store.bindings 0)

/-- The global scope is the same. -/
theorem Service.Server.OffersBuiltins.kept {s s' : Server} (h : s.OffersBuiltins)
    (globals : s'.globals = s.globals) (extend : s.store.Extends s'.store)
    (root : s'.store.bindings 0 = s.store.bindings 0) : s'.OffersBuiltins where
  globals := globals.trans h.globals
  nonempty := Nat.lt_of_lt_of_le h.nonempty extend.size
  top := (extend.parent 0 h.nonempty).trans h.top
  builtins := root ▸ h.builtins

theorem Service.Server.OffersBuiltins.seated {s : Server} (h : s.OffersBuiltins) (seat : Seat) :
    (s.seated seat).OffersBuiltins :=
  h.kept rfl (s.store.widens_alloc _).toExtends
    (Store.bindings_congr (Store.frames_alloc_of_lt _ h.nonempty))

/-- A server offers the same as itself, whatever connections it has. -/
theorem Service.Server.OffersBuiltins.offers {s t : Server} (h : s.OffersBuiltins)
    (store : t.store = s.store) : s.Offers t where
  top := h.top
  top_right := store ▸ h.top
  nonempty := h.nonempty
  nonempty_right := store ▸ h.nonempty
  offers := store ▸ h.builtins

namespace Service.Server

variable {settings : Settings} {registry : Registry} {number : Nat} {s : Server}

/-- A new server has no connections. -/
theorem peer_of_new (made : Server.new settings registry number = .ok s) :
    s.peer = .new settings.historyLimit := by
  unfold Server.new at made
  change ((shorthands registry settings.bootstrap).foldlM (bindShorthand registry 0)
    (globalsOf number, 0) >>= _) = _ at made
  cases folded : (shorthands registry settings.bootstrap).foldlM (bindShorthand registry 0)
      (globalsOf number, 0) with
  | error fault =>
      rw [folded] at made
      exact nomatch made
  | ok state =>
      rw [folded] at made
      cases made
      rfl

/-- A new server offers builtins: its shorthands have reserved names. -/
theorem offersBuiltins_of_new (made : Server.new settings registry number = .ok s) :
    s.OffersBuiltins := by
  have named : ∀ sh ∈ shorthands registry settings.bootstrap, IsReserved sh.1 := by
    simp [shorthands, IsReserved, reserved]
  obtain ⟨globals, -, -, -, -, serial, folded⟩ := store_of_new made
  have start : 0 < (globalsOf number).frames.size ∧ (globalsOf number).parent? 0 = none ∧
      OffersAlike IsReserved ((globalsOf number).bindings 0) ((globalsOf number).bindings 0) :=
    ⟨(globalsOf_global number).nonempty, (globalsOf_global number).parent,
      (globalsOf_global number).offersAlike⟩
  have kept := shorthands_keep (P := fun s => 0 < s.frames.size ∧ s.parent? 0 = none ∧
      OffersAlike IsReserved (s.bindings 0) (s.bindings 0)) _
    (fun sh mem state state' h bound => ?_) start folded
  · exact ⟨globals, kept.1, kept.2.1, kept.2.2⟩
  · obtain ⟨body, -, store⟩ := body_of_bindShorthand bound
    refine store ▸ ⟨?_, ?_, fun name shown => ?_⟩
    · rw [Store.size_set]
      exact h.1
    · rw [Store.parent?_set]
      exact h.2.1
    · rw [Store.bindings_set _ h.1, Association.lookup_put,
        if_neg fun same : name = sh.1 => shown (same ▸ named sh mem)]
      exact h.2.2 name shown

end Service.Server

namespace Network

variable {n n' : Network} {i a b : Nat} {id x y : ConnectionId} {s : Server} {opener : Party}
  {ticket : Ticket}

/-- A server that is added has no connections, and neither had its number.  What a table holds
apart from its limit stays the same. -/
theorem peer_addServer {α : Type} {settings : Settings} {registry : Registry}
    (view : Peer.Table → α) (plain : ∀ limit, view (.new limit) = view (.new 0))
    (added : addServer settings registry n = .ok i n') (a : Nat) :
    view (n'.peer a) = view (n.peer a) := by
  obtain ⟨server, made, rfl⟩ := addServer_eq_ok added
  by_cases same : a = n.servers.size
  · subst same
    rw [peer_of_found Array.getElem?_push_size, Service.Server.peer_of_new made,
      peer_of_absent (Array.getElem?_eq_none (Nat.le_refl _))]
    exact plain _
  · rw [peer, Array.getElem?_push, if_neg same, peer]

/-! ## Who holds which end -/

/-- Connections are joined by links, except for one that is about to be. -/
structure IsWired (opener : Party) (n : Network) : Prop where
  held : ∀ k side a x, n.HeldBy k side a x → x < (n.peer a).nextId
  single : ∀ k k' side side' a x, n.HeldBy k side a x → n.HeldBy k' side' a x →
    k = k' ∧ side = side'
  live : ∀ a x, n.kind? a x ≠ none → x < (n.peer a).nextId
  remote : ∀ a x r, n.kind? a x = some (some r) →
    n.HeldBy r.link .opener a x ∨ r.link = n.links.size ∧ opener = .server a x

namespace IsWired

variable (h : n.IsWired opener)

include h

theorem new (a : Nat) : n.kind? a (n.peer a).nextId = none := by
  by_contra live
  exact Nat.lt_irrefl _ (h.live a _ live)

/-- Links and remotes are the same, and connections may have gone. -/
theorem changed (held : ∀ k side a x, n'.HeldBy k side a x ↔ n.HeldBy k side a x)
    (size : n'.links.size = n.links.size) (nextId : ∀ a, (n.peer a).nextId ≤ (n'.peer a).nextId)
    (kinds : ∀ a x kind, n'.kind? a x = some kind → x < (n'.peer a).nextId ∧
      ∀ r, kind = some r → ∃ r', n.kind? a x = some (some r') ∧ r'.link = r.link) :
    n'.IsWired opener where
  held k side a x holds := Nat.lt_of_lt_of_le (h.held k side a x ((held ..).mp holds)) (nextId a)
  single k k' side side' a x first second :=
    h.single k k' side side' a x ((held ..).mp first) ((held ..).mp second)
  live a x live := by
    obtain ⟨kind, known⟩ := Option.ne_none_iff_exists'.mp live
    exact (kinds a x kind known).1
  remote a x r known := by
    obtain ⟨r', before, link⟩ := (kinds a x _ known).2 r rfl
    rw [held, size, ← link]
    exact h.remote a x r' before

/-- Nobody comes or goes. -/
theorem unchanged (links : n'.links = n.links)
    (nextId : ∀ a, (n'.peer a).nextId = (n.peer a).nextId)
    (kinds : ∀ a x, n'.kind? a x = n.kind? a x) : n'.IsWired opener :=
  h.changed (fun _ _ _ _ => heldBy_congr links) (congrArg Array.size links)
    (fun a => Nat.le_of_eq (nextId a).symm) fun a x kind known => by
      rw [kinds] at known
      exact ⟨nextId a ▸ h.live a x (known ▸ nofun), fun r same => ⟨r, same ▸ known, rfl⟩⟩

/-- Somebody accepts a connection. -/
theorem accept (target : Target) : (n.accept target).1.IsWired opener ∧
    ∀ b y, (n.accept target).2 = .server b y →
      y = (n.peer b).nextId ∧ y < ((n.accept target).1.peer b).nextId := by
  cases target with
  | elsewhere => exact ⟨h, nofun⟩
  | remote port replies => exact ⟨h.unchanged rfl (fun _ => rfl) fun _ _ => rfl, nofun⟩
  | server j =>
      cases found : n.servers[j]? with
      | none =>
          rw [accept_absent found]
          exact ⟨h, nofun⟩
      | some s =>
          have kinds := kind?_added found none (h.new j)
          have grows := fun a => (grows_added (n := n) (i := j) none a).nextId
          have less : (n.peer j).nextId <
              ((n.modifyPeer j fun _ => ((n.peer j).add none).1).peer j).nextId := by
            rw [peer_modifyPeer found]
            exact Nat.lt_succ_self _
          have tables := peer_accept found
          have links := (n.accepts (.server j)).links
          refine ⟨h.changed (fun k side a x => heldBy_congr links) (congrArg Array.size links)
            (fun a => ?_) fun a x kind known => ?_, fun b y same => ?_⟩
          · rw [tables]
            exact grows a
          · rw [kind?, tables] at known
            rw [tables]
            have before := (kinds a x).symm.trans known
            split at before
            · rename_i here
              cases before
              rw [here.1, here.2]
              refine ⟨less, fun r same => ?_⟩
              cases same
            · have live := Option.ne_none_iff_exists'.mpr ⟨kind, before⟩
              exact ⟨Nat.lt_of_lt_of_le (h.live a x live) (grows a),
                fun r same => ⟨r, same ▸ before, rfl⟩⟩
          · rw [accept_server found] at same
            cases same
            rw [tables, ← peer_of_found found]
            exact ⟨rfl, less⟩

end IsWired

/-- Nobody holds an end of a link for the connection yet, which is there. -/
def Fresh (n : Network) (party : Party) : Prop :=
  ∀ a x, party = .server a x → x < (n.peer a).nextId ∧ ∀ k side, ¬ n.HeldBy k side a x

theorem IsWired.join (h : n.IsWired opener) {acceptor : Party} (opens : n.Fresh opener)
    (accepts : n.Fresh acceptor)
    (apart : ∀ a x, opener = .server a x → acceptor ≠ .server a x) :
    (n.join opener acceptor).IsWired .outside where
  held k side a x holds := by
    rcases heldBy_join.mp holds with before | ⟨-, party⟩
    · exact h.held k side a x before
    · cases side with
      | opener => exact (opens a x party).1
      | acceptor => exact (accepts a x party).1
  single k k' side side' a x first second := by
    have none : ∀ k side, n.HeldBy k side a x → ∀ side',
        ((Link.between opener acceptor).side side').party ≠ .server a x := by
      intro k side holds side' party
      cases side' with
      | opener => exact (opens a x party).2 k side holds
      | acceptor => exact (accepts a x party).2 k side holds
    rcases heldBy_join.mp first with before | ⟨last, party⟩ <;>
      rcases heldBy_join.mp second with before' | ⟨last', party'⟩
    · exact h.single k k' side side' a x before before'
    · exact absurd party' (none k side before side')
    · exact absurd party (none k' side' before' side)
    · refine ⟨last.trans last'.symm, ?_⟩
      cases side <;> cases side'
      · rfl
      · exact absurd party' (apart a x party)
      · exact absurd party (apart a x party')
      · rfl
  live := h.live
  remote a x r known := by
    rcases h.remote a x r known with holds | ⟨link, party⟩
    · exact .inl (heldBy_join.mpr (.inl holds))
    · exact .inl (heldBy_join.mpr (.inr ⟨link, party⟩))

namespace IsWired

variable (h : n.IsWired .outside)

include h

/-- One who accepts is joined with one who opens, or with somebody outside. -/
theorem accept_join {n₁ : Network} (h₁ : n₁.IsWired opener) (links : n₁.links = n.links)
    (opens : ∀ a x, opener = .server a x → x = (n.peer a).nextId ∧ x < (n₁.peer a).nextId)
    (target : Target) :
    ((n₁.accept target).1.join opener (n₁.accept target).2).IsWired .outside := by
  obtain ⟨accepted, party⟩ := h₁.accept target
  obtain ⟨still, -, -, grows⟩ := n₁.accepts target
  refine accepted.join (fun a x same => ?_) (fun a x same => ?_) fun a x same same' => ?_
  · obtain ⟨new, less⟩ := opens a x same
    refine ⟨Nat.lt_of_lt_of_le less (grows a).nextId, fun k side holds => ?_⟩
    have before := h.held k side a x ((heldBy_congr (still.trans links)).mp holds)
    exact Nat.lt_irrefl _ (new ▸ before)
  · obtain ⟨new, less⟩ := party a x same
    refine ⟨less, fun k side holds => ?_⟩
    have before := h₁.held k side a x ((heldBy_congr still).mp holds)
    exact Nat.lt_irrefl _ (new ▸ before)
  · obtain ⟨new, -⟩ := party a x same'
    exact Nat.lt_irrefl _ (new ▸ (opens a x same).2)

/-- A new remote is about to be joined to the next link. -/
theorem opened (there : i < n.servers.size) : (n.modifyPeer i fun _ =>
    ((n.peer i).add (some ⟨n.links.size, .empty⟩)).1).IsWired (.server i (n.peer i).nextId) ∧
      (n.peer i).nextId < ((n.modifyPeer i fun _ =>
        ((n.peer i).add (some ⟨n.links.size, .empty⟩)).1).peer i).nextId := by
  have found := Array.getElem?_eq_getElem there
  have kinds := kind?_added found (some ⟨n.links.size, .empty⟩) (h.new i)
  have grows := fun a => (grows_added (n := n) (i := i) (some ⟨n.links.size, .empty⟩) a).nextId
  have less : (n.peer i).nextId < ((n.modifyPeer i fun _ =>
      ((n.peer i).add (some ⟨n.links.size, .empty⟩)).1).peer i).nextId := by
    rw [peer_modifyPeer found]
    exact Nat.lt_succ_self _
  refine ⟨⟨fun k side a x holds => Nat.lt_of_lt_of_le (h.held k side a x holds) (grows a),
    h.single, fun a x live => ?_, fun a x r known => ?_⟩, less⟩
  · rw [kinds] at live
    split at live
    · rename_i here
      rw [here.1, here.2]
      exact less
    · exact Nat.lt_of_lt_of_le (h.live a x live) (grows a)
  · rw [kinds] at known
    split at known
    · rename_i here
      cases known
      exact .inr ⟨rfl, by rw [here.1, here.2]⟩
    · exact .inl ((h.remote a x r known).resolve_right fun both => nomatch both.2)

theorem connect {host : String} {port : Nat} (there : i < n.servers.size) :
    ((connect i host port).after n).IsWired .outside := by
  unfold Act.after Network.connect
  cases n.reach host port with
  | error fault => exact h
  | ok target =>
      obtain ⟨opened, less⟩ := h.opened there
      refine h.accept_join opened rfl (fun a x same => ?_) target
      cases same
      exact ⟨rfl, less⟩

theorem attach {k : Nat} (attached : n.attach i = some (n', k)) : n'.IsWired .outside := by
  obtain rfl := attach_eq_some attached
  exact h.accept_join h rfl nofun (.server i)

end IsWired

/-! ## Who waits for what -/

/-- A request waits on one connection until it has ended. -/
structure IsTicketed (n : Network) : Prop where
  waiting : ∀ a x ticket, ticket ∈ n.tickets a x →
    ticket < n.nextTicket ∧ ∀ o ∈ n.outcomes, o.ticket ≠ ticket
  ended : ∀ o ∈ n.outcomes, o.ticket < n.nextTicket
  once : ∀ a x, (n.tickets a x).Nodup
  one : ∀ a x b y ticket, ticket ∈ n.tickets a x → ticket ∈ n.tickets b y → a = b ∧ x = y

namespace IsTicketed

variable (h : n.IsTicketed)

include h

/-- Some requests end, and no other one begins. -/
theorem shrunk (tickets : ∀ a x, (n'.tickets a x).Sublist (n.tickets a x))
    (next : n.nextTicket ≤ n'.nextTicket) {more : List Outcome}
    (outcomes : n'.outcomes = n.outcomes ++ more)
    (ends : ∀ o ∈ more, ∃ a x, o.ticket ∈ n.tickets a x ∧ o.ticket ∉ n'.tickets a x) :
    n'.IsTicketed where
  waiting a x ticket mem := by
    have before := (tickets a x).subset mem
    obtain ⟨less, open_⟩ := h.waiting a x ticket before
    refine ⟨Nat.lt_of_lt_of_le less next, fun o among same => ?_⟩
    rw [outcomes, List.mem_append] at among
    rcases among with old | new
    · exact open_ o old same
    · obtain ⟨b, y, waited, gone⟩ := ends o new
      obtain ⟨rfl, rfl⟩ := h.one a x b y ticket before (same ▸ waited)
      exact gone (same ▸ mem)
  ended o among := by
    rw [outcomes, List.mem_append] at among
    rcases among with old | new
    · exact Nat.lt_of_lt_of_le (h.ended o old) next
    · obtain ⟨b, y, waited, -⟩ := ends o new
      exact Nat.lt_of_lt_of_le (h.waiting b y _ waited).1 next
  once a x := (h.once a x).sublist (tickets a x)
  one a x b y ticket mem mem' :=
    h.one a x b y ticket ((tickets a x).subset mem) ((tickets b y).subset mem')

/-- No request begins or ends. -/
theorem unchanged (tickets : ∀ a x, n'.tickets a x = n.tickets a x)
    (next : n'.nextTicket = n.nextTicket) (outcomes : n'.outcomes = n.outcomes) :
    n'.IsTicketed :=
  h.shrunk (fun a x => tickets a x ▸ .refl _) (Nat.le_of_eq next.symm)
    (outcomes.trans (List.append_nil _).symm) nofun

theorem drop (id : ConnectionId) (reason : String) : (n.drop i id reason).1.IsTicketed := by
  have gone : (n.drop i id reason).1.tickets i id = [] := by
    rw [tickets, slots_drop, if_pos ⟨rfl, rfl⟩]
    rfl
  refine h.shrunk (fun a x => ?_) (Nat.le_refl _) (outcomes_drop reason)
    fun o mem => ⟨i, id, ?_, gone ▸ List.not_mem_nil⟩
  · by_cases here : a = i ∧ x = id
    · rw [here.1, here.2, gone]
      exact List.nil_sublist _
    · rw [tickets, slots_drop, if_neg here, ← tickets]
  · obtain ⟨ticket, waits, rfl⟩ := List.mem_map.mp mem
    exact waits

theorem take (id : ConnectionId) (text : String) : (n.take i id text).IsTicketed := by
  have rest : ∀ a x, (n.take i id text).tickets a x =
      if a = i ∧ x = id then Wire.ticketsOf (n.slots i id).tail else n.tickets a x := by
    intro a x
    rw [tickets, slots_take]
    split <;> rfl
  have once := h.once i id
  refine h.shrunk (fun a x => ?_) (Nat.le_refl _) (outcomes_take text) fun o mem => ?_
  · rw [rest]
    split
    · rename_i here
      rw [here.1, here.2]
      exact (List.tail_sublist _).filterMap _
    · exact .refl _
  · rw [tickets] at once
    refine ⟨i, id, ?_⟩
    rw [rest, if_pos ⟨rfl, rfl⟩, tickets]
    generalize n.slots i id = slots at once mem ⊢
    obtain _ | ⟨_ | ticket, slots⟩ := slots
    · cases mem
    · cases mem
    · obtain rfl : o = _ := List.mem_singleton.mp mem
      exact ⟨List.mem_cons_self, (List.nodup_cons.mp once).1⟩

/-- A request of a new number begins. -/
theorem queue (waits : Bool) {r : Remote} (live : n.kind? i id = some (some r)) :
    (n.queue i id waits).IsTicketed := by
  have new : ∀ a x, n.nextTicket ∉ n.tickets a x := fun a x mem =>
    Nat.lt_irrefl _ (h.waiting a x _ mem).1
  have among : ∀ a x ticket, ticket ∈ (n.queue i id waits).tickets a x →
      ticket ∈ n.tickets a x ∨ ticket = n.nextTicket ∧ a = i ∧ x = id := by
    intro a x ticket mem
    rw [tickets, slots_queue waits live] at mem
    split at mem
    · rename_i here
      rw [Wire.ticketsOf, List.filterMap_append, List.mem_append] at mem
      refine mem.imp (fun before => ?_) fun last => ⟨?_, here⟩
      · rw [here.1, here.2]
        exact before
      · cases waits
        · cases last
        · exact List.mem_singleton.mp last
    · exact .inl mem
  refine ⟨fun a x ticket mem => ?_, fun o mem => Nat.lt_succ_of_lt (h.ended o mem),
    fun a x => ?_, fun a x b y ticket mem mem' => ?_⟩
  · rcases among a x ticket mem with before | ⟨rfl, -⟩
    · exact ⟨Nat.lt_succ_of_lt (h.waiting a x ticket before).1, (h.waiting a x ticket before).2⟩
    · exact ⟨Nat.lt_succ_self _, fun o mem => Nat.ne_of_lt (h.ended o mem)⟩
  · rw [tickets, slots_queue waits live]
    split
    · rw [Wire.ticketsOf, List.filterMap_append, List.nodup_append]
      refine ⟨h.once i id, ?_, fun ticket before last mem same => ?_⟩
      · cases waits
        · exact List.nodup_nil
        · exact List.nodup_cons.mpr ⟨List.not_mem_nil, List.nodup_nil⟩
      · cases waits
        · cases mem
        · rw [same, List.mem_singleton.mp mem] at before
          exact new i id before
    · exact h.once a x
  · rcases among a x ticket mem with before | ⟨rfl, rfl, rfl⟩ <;>
      rcases among b y _ mem' with before' | ⟨same, rfl, rfl⟩
    · exact h.one a x b y ticket before before'
    · exact absurd (same ▸ before) (new a x)
    · exact absurd before' (new b y)
    · exact ⟨rfl, rfl⟩

end IsTicketed

/-! ## Regular networks -/

/-- Connections are joined, requests have numbers of their own, and all servers offer builtins. -/
structure IsRegular (n : Network) : Prop extends n.IsWired .outside, n.IsTicketed where
  offers : ∀ (i : Nat) (s : Server), n.servers[i]? = some s → s.OffersBuiltins
  silent : ∀ a x, (n.peer a).nextId ≤ x → (n.peer a).heard x = []

/-- What servers offer does not depend on their connections. -/
theorem offers_modifyPeer (offers : ∀ (j : Nat) (s : Server), n.servers[j]? = some s →
    s.OffersBuiltins) {change : Peer.Table → Peer.Table} {j : Nat}
    (found : (n.modifyPeer i change).servers[j]? = some s) : s.OffersBuiltins := by
  obtain ⟨t, there, ⟨-, rfl⟩ | ⟨rfl, rfl⟩⟩ := server_of_modifyServer found
  · exact offers _ _ there
  · exact (offers _ t there).kept rfl (.refl _) rfl

namespace IsRegular

variable (h : n.IsRegular)

include h

/-- Nothing more is heard. -/
theorem silent_of (nextId : ∀ a, (n.peer a).nextId ≤ (n'.peer a).nextId)
    (heard : ∀ a x, (n'.peer a).heard x = (n.peer a).heard x) :
    ∀ a x, (n'.peer a).nextId ≤ x → (n'.peer a).heard x = [] := fun a x le =>
  (heard a x).trans (h.silent a x (Nat.le_trans (nextId a) le))

/-- One server is changed, but neither its connections nor what it offers. -/
theorem modifyServer {change : Server → Server}
    (peer : ∀ s, n.servers[i]? = some s → (change s).peer = s.peer)
    (offers : ∀ s, n.servers[i]? = some s → s.OffersBuiltins → (change s).OffersBuiltins) :
    (n.modifyServer i change).IsRegular := by
  have kinds : ∀ a x, (n.modifyServer i change).kind? a x = n.kind? a x := fun a x => by
    rw [kind?, peer_modifyServer peer, kind?]
  have tables := peer_modifyServer peer
  refine ⟨h.toIsWired.unchanged rfl (fun a => congrArg (·.nextId) (tables a)) kinds,
    h.toIsTicketed.unchanged (fun a x => tickets_congr (kinds a x)) rfl rfl, fun j s found => ?_,
    h.silent_of (fun a => Nat.le_of_eq (congrArg (·.nextId) (tables a).symm))
      fun a x => congrArg (·.heard x) (tables a)⟩
  · obtain ⟨t, there, ⟨-, rfl⟩ | ⟨rfl, rfl⟩⟩ := server_of_modifyServer found
    · exact h.offers j _ there
    · exact offers t there (h.offers _ t there)

/-- Something is noted of a connection. -/
theorem note {change : Peer.Table → Peer.Table}
    (notes : ∀ s, n.servers[i]? = some s → s.peer.Notes (change s.peer)) :
    (n.modifyPeer i change).IsRegular := by
  have kinds : ∀ a x, (n.modifyPeer i change).kind? a x = n.kind? a x := fun a x =>
    (notes_modifyPeer notes a).kind? x
  exact ⟨h.toIsWired.unchanged rfl (fun a => (notes_modifyPeer notes a).nextId) kinds,
    h.toIsTicketed.unchanged (fun a x => tickets_congr (kinds a x)) rfl rfl,
    fun _ _ => offers_modifyPeer h.offers,
    h.silent_of (fun a => Nat.le_of_eq (notes_modifyPeer notes a).nextId.symm)
      fun a => (notes_modifyPeer notes a).heard⟩

/-- Something is read or written on a link, or an end of it is closed. -/
theorem link {k : Nat} {change : Link → Link}
    (parties : ∀ l side i id, n.links[k]? = some l →
      (((change l).side side).party = .server i id ↔ (l.side side).party = .server i id)) :
    (n.modifyLink k change).IsRegular where
  toIsWired :=
    h.toIsWired.changed ((Progress.modifyLink parties).held_iff Array.size_modify)
      Array.size_modify (fun _ => Nat.le_refl _) fun a x kind (known : n.kind? a x = some kind) =>
        ⟨h.live a x (known ▸ nofun), fun r same => ⟨r, same ▸ known, rfl⟩⟩
  toIsTicketed := h.toIsTicketed.unchanged (fun _ _ => rfl) rfl rfl
  offers := h.offers
  silent := h.silent

/-- Some requests end or begin when the table of a server is changed. -/
theorem of_modifyPeer {change : Peer.Table → Peer.Table}
    (wired : (n.modifyPeer i change).IsWired .outside)
    (silent : ∀ a x, ((n.modifyPeer i change).peer a).nextId ≤ x →
      ((n.modifyPeer i change).peer a).heard x = [])
    (servers : n'.servers = (n.modifyPeer i change).servers) (links : n'.links = n.links)
    (ticketed : n'.IsTicketed) : n'.IsRegular where
  toIsWired := wired.unchanged links (fun a => by rw [peer, servers, peer])
    fun a x => by rw [kind?, peer, servers, kind?, peer]
  toIsTicketed := ticketed
  offers j s found := by
    rw [servers] at found
    exact offers_modifyPeer h.offers found
  silent a x := by
    rw [peer, servers]
    exact silent a x

theorem drop (id : ConnectionId) (reason : String) : (n.drop i id reason).1.IsRegular := by
  have nextId := peer_modifyPeer_rel (n := n) (fun t t' => t.nextId ≤ t'.nextId)
    (fun _ => Nat.le_refl _) (fun _ => ((n.peer i).drop id reason).1)
    (Nat.le_of_eq ((n.peer i).nextId_drop id reason).symm)
  have heard := peer_modifyPeer_rel (n := n) (fun t t' => ∀ x, t'.heard x = t.heard x)
    (fun _ _ => rfl) (fun _ => ((n.peer i).drop id reason).1)
    fun x => (n.peer i).heard_drop id x reason
  have dropped : (n.modifyPeer i fun _ => ((n.peer i).drop id reason).1).IsWired .outside := by
    refine h.toIsWired.changed (fun _ _ _ _ => heldBy_congr rfl) rfl nextId
      fun a x kind known => ?_
    have known := (kind?_drop reason a x).symm.trans known
    split at known
    · exact nomatch known
    · exact ⟨Nat.lt_of_lt_of_le (h.live a x (known ▸ nofun)) (nextId a),
        fun r same => ⟨r, same ▸ known, rfl⟩⟩
  exact h.of_modifyPeer dropped (h.silent_of nextId heard) rfl rfl (h.toIsTicketed.drop id reason)

/-- The slots of one connection are changed. -/
theorem slotted {change : Peer.Table → Peer.Table} {f : Remote → Remote}
    (link : ∀ r, (f r).link = r.link)
    (nextId : (change (n.peer i)).nextId = (n.peer i).nextId)
    (kinds : ∀ a x, (n.modifyPeer i change).kind? a x =
      if a = i ∧ x = id then (n.kind? i id).map (Option.map f) else n.kind? a x) :
    (n.modifyPeer i change).IsWired .outside := by
  have nextId := peer_modifyPeer_rel (fun t t' => t.nextId ≤ t'.nextId) (fun _ => Nat.le_refl _)
    change (Nat.le_of_eq nextId.symm)
  refine h.toIsWired.changed (fun _ _ _ _ => heldBy_congr rfl) rfl nextId fun a x kind known => ?_
  rw [kinds] at known
  split at known
  · rename_i here
    obtain ⟨kind', before, rfl⟩ := Option.map_eq_some_iff.mp known
    rw [here.1, here.2]
    refine ⟨Nat.lt_of_lt_of_le (h.live i id (before ▸ nofun)) (nextId i), fun r same => ?_⟩
    obtain ⟨r', rfl, rfl⟩ := Option.map_eq_some_iff.mp same
    exact ⟨r', before, (link r').symm⟩
  · exact ⟨Nat.lt_of_lt_of_le (h.live a x (known ▸ nofun)) (nextId a),
      fun r same => ⟨r, same ▸ known, rfl⟩⟩

theorem take {k : Nat} {side : Side} (held : n.HeldBy k side i id) (text : String) :
    (n.take i id text).IsRegular := by
  have nextId := peer_modifyPeer_rel (n := n) (fun t t' => t.nextId ≤ t'.nextId)
    (fun _ => Nat.le_refl _) (fun _ => ((n.peer i).respond id text).1)
    (Nat.le_of_eq ((n.peer i).nextId_respond id text).symm)
  have silent : ∀ a x, ((n.take i id text).peer a).nextId ≤ x →
      ((n.take i id text).peer a).heard x = [] := by
    intro a x later
    have new : (n.peer a).nextId ≤ x := Nat.le_trans (nextId a) later
    rw [heard_take, if_neg, h.silent a x new]
    rintro ⟨rfl, rfl, -⟩
    exact Nat.lt_irrefl _ (Nat.lt_of_lt_of_le (h.held k side a x held) new)
  have wired : (n.modifyPeer i fun _ => ((n.peer i).respond id text).1).IsWired .outside :=
    h.slotted (f := fun r => { r with pending := ⟨r.pending.slots.tail⟩ }) (fun _ => rfl)
      ((n.peer i).nextId_respond id text) (kind?_take text)
  exact h.of_modifyPeer wired silent rfl rfl (h.toIsTicketed.take id text)

theorem queue (waits : Bool) {r : Remote} (live : n.kind? i id = some (some r)) :
    (n.queue i id waits).IsRegular := by
  have wired : (n.modifyPeer i
      (·.pushSlot id (if waits then some n.nextTicket else none))).IsWired .outside :=
    h.slotted (f := fun r =>
      { r with pending := r.pending.push (if waits then some n.nextTicket else none) })
      (fun _ => rfl) rfl (kind?_queue waits)
  have nextId : ∀ a, (n.peer a).nextId ≤ ((n.queue i id waits).peer a).nextId :=
    peer_modifyPeer_rel (fun t t' => t.nextId ≤ t'.nextId) (fun _ => Nat.le_refl _)
      (·.pushSlot id (if waits then some n.nextTicket else none)) (Nat.le_refl _)
  exact h.of_modifyPeer wired (h.silent_of nextId fun _ _ => heard_queue waits) rfl rfl
    (h.toIsTicketed.queue waits live)

theorem send (i : Nat) (id : ConnectionId) (text : String) (waits : Bool) :
    ((send i id text waits).after n).IsRegular := by
  unfold Act.after Network.send
  cases there : (n.peer i).remote id with
  | error fault => exact h
  | ok remote =>
      have queued := h.queue waits (kind?_of_remote there)
      dsimp only
      cases n.write remote.link (Text.Utf8.encode text) with
      | error fault => exact queued.drop id _
      | ok frame =>
          refine (queued.link fun l side i id _ => ?_).note fun s _ => s.peer.notes_noteSent id text
          rw [party_write]

end IsRegular

theorem IsWired.tickets_accept (h : n.IsWired opener) (target : Target) (a : Nat)
    (x : ConnectionId) : (n.accept target).1.tickets a x = n.tickets a x := by
  cases target with
  | elsewhere => rfl
  | remote port replies => rfl
  | server j =>
      cases found : n.servers[j]? with
      | none => rw [accept_absent found]
      | some s =>
          rw [← tickets_added found (fun r (same : none = some r) => nomatch same)
            (h.new j) a x]
          exact tickets_congr (congrArg (Peer.Table.kind? · x) (peer_accept found a))

theorem offers_accept (offers : ∀ (j : Nat) (s : Server), n.servers[j]? = some s →
    s.OffersBuiltins) (target : Target) {j : Nat} {s : Server}
    (found : (n.accept target).1.servers[j]? = some s) : s.OffersBuiltins := by
  cases target with
  | elsewhere => exact offers j s found
  | remote port replies => exact offers j s found
  | server k =>
      cases there : n.servers[k]? with
      | none =>
          rw [accept_absent there] at found
          exact offers j s found
      | some t =>
          rw [accept_server there] at found
          obtain ⟨u, there, ⟨-, rfl⟩ | ⟨rfl, rfl⟩⟩ := server_of_modifyServer found
          · exact offers_modifyPeer offers there
          · exact (offers_modifyPeer offers there).seated _

namespace IsRegular

variable (h : n.IsRegular)

include h

theorem connect {host : String} {port : Nat} (there : i < n.servers.size) :
    ((connect i host port).after n).IsRegular := by
  have wired : ((Network.connect i host port).after n).IsWired .outside :=
    h.toIsWired.connect there
  unfold Act.after Network.connect at wired ⊢
  generalize n.reach host port = reached at wired ⊢
  cases reached with
  | error fault => exact h
  | ok target =>
      obtain ⟨opened, -⟩ := h.toIsWired.opened there
      have accepts := (n.modifyPeer i fun _ =>
        ((n.peer i).add (some ⟨n.links.size, .empty⟩)).1).accepts target
      have tickets := fun a x => (opened.tickets_accept target a x).trans
        (tickets_added (Array.getElem?_eq_getElem there)
          (fun r same => by rw [← Option.some.inj same]) (h.toIsWired.new i) a x)
      have grows := fun a => (grows_added _ a).trans (accepts.grows a)
      exact ⟨wired, h.toIsTicketed.unchanged tickets accepts.nextTicket accepts.outcomes,
        fun _ _ => offers_accept (fun _ _ => offers_modifyPeer h.offers) target,
        h.silent_of (fun a => (grows a).nextId) fun a => (grows a).heard⟩

theorem attach {k : Nat} (attached : n.attach i = some (n', k)) : n'.IsRegular := by
  have wired := h.toIsWired.attach attached
  obtain rfl := attach_eq_some attached
  have accepts := n.accepts (.server i)
  exact ⟨wired, h.toIsTicketed.unchanged (h.toIsWired.tickets_accept (.server i))
    accepts.nextTicket accepts.outcomes, fun _ _ => offers_accept h.offers (.server i),
    h.silent_of (fun a => (accepts.grows a).nextId) fun a => (accepts.grows a).heard⟩

/-- Neither servers nor links are changed, and no request begins or ends. -/
theorem around (servers : n'.servers = n.servers) (links : n'.links = n.links)
    (outcomes : n'.outcomes = n.outcomes) (tickets : n'.nextTicket = n.nextTicket) :
    n'.IsRegular := by
  have kinds : ∀ a x, n'.kind? a x = n.kind? a x := fun a x => by
    rw [kind?, peer, servers, kind?, peer]
  exact ⟨h.toIsWired.unchanged links (fun a => by rw [peer, servers, peer]) kinds,
    h.toIsTicketed.unchanged (fun a x => tickets_congr (kinds a x)) tickets outcomes,
    servers ▸ h.offers, by simpa only [peer, servers] using h.silent⟩

theorem addServer {settings : Settings} {registry : Registry}
    (added : addServer settings registry n = .ok i n') : n'.IsRegular := by
  have kinds : ∀ a x, n'.kind? a x = n.kind? a x := fun a x =>
    peer_addServer (·.kind? x) (fun _ => rfl) added a
  have nextId : ∀ a, (n'.peer a).nextId = (n.peer a).nextId :=
    peer_addServer (·.nextId) (fun _ => rfl) added
  have silent := h.silent_of (fun a => Nat.le_of_eq (nextId a).symm) fun a x =>
    peer_addServer (·.heard x) (fun _ => rfl) added a
  obtain ⟨server, made, rfl⟩ := addServer_eq_ok added
  refine ⟨h.toIsWired.unchanged rfl nextId kinds,
    h.toIsTicketed.unchanged (fun a x => tickets_congr (kinds a x)) rfl rfl,
    fun j s found => ?_, silent⟩
  rw [Array.getElem?_push] at found
  split at found
  · cases found
    exact Service.Server.offersBuiltins_of_new made
  · exact h.offers j s found

/-- Whatever happens, a network stays regular. -/
theorem incident {links : Nat → Prop} (happens : Incident links n n') : n'.IsRegular := by
  cases happens with
  | server peer alone =>
      refine h.modifyServer peer fun s found offers => ?_
      exact offers.kept (alone s found).globals (alone s found).extends_ (alone s found).root
  | note notes => exact h.note notes
  | link _ parties => exact h.link parties
  | take text held _ => exact h.take held text
  | drop i id reason => exact h.drop id reason
  | send i id text waits => exact h.send i id text waits
  | connect host port there => exact h.connect there
  | attach attached => exact h.attach attached
  | addServer added => exact h.addServer added
  | around servers links outcomes tickets => exact h.around servers links outcomes tickets

end IsRegular

/-- Where there is nobody, nothing has happened. -/
theorem isRegular_amid (surroundings : Surroundings) : (amid surroundings).IsRegular := by
  have none : ∀ a x, (amid surroundings).kind? a x = Option.none := fun a x =>
    kind?_of_absent (n := amid surroundings) rfl
  have empty : ∀ a x, (amid surroundings).tickets a x = [] := fun a x => by
    rw [tickets, slots, none]
    rfl
  refine ⟨⟨?_, ?_, fun a x live => absurd (none a x) live, fun a x r known => ?_⟩,
    ⟨fun a x ticket mem => ?_, fun o mem => absurd mem List.not_mem_nil, fun a x => ?_,
      fun a x b y ticket mem => ?_⟩, fun i s found => ?_, fun a x _ => ?_⟩
  · rintro k side a x ⟨l, found, -⟩
    cases found
  · rintro k k' side side' a x ⟨l, found, -⟩
    cases found
  · cases (none a x).symm.trans known
  · exact absurd (empty a x ▸ mem) List.not_mem_nil
  · exact empty a x ▸ List.nodup_nil
  · exact absurd (empty a x ▸ mem) List.not_mem_nil
  · cases found
  · rw [peer_of_absent (n := amid surroundings) rfl]
    rfl

end Network

end PeerScript
