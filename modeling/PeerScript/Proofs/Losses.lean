import PeerScript.Proofs.Bystanders
import PeerScript.Proofs.Unbound.Histories

/-!
# Why requests fail

A request that was sent ends with its response, or it fails because its connection goes away.  So it
never fails for a reason of its own, whatever happens to the network: `OnlyLosses` says so of all
requests that have ended, every step keeps it, and it is true of every network that arises.
-/

set_option autoImplicit false

namespace PeerScript

open Peer (ConnectionId)
open Service (Server Seat PeerCall ServerCall peerName)
open Wire (Bytes Outcome)

/-! ## Slots and tables -/

namespace Wire

/-- A request that has failed has lost its connection. -/
def Outcome.IsLoss (o : Outcome) : Prop :=
  ∀ fault, o.result = .error fault → ∃ reason, fault = .transport reason

namespace Pending

theorem isLoss_failures (p : Pending) (reason : String) : ∀ o ∈ p.failures reason, o.IsLoss := by
  intro o mem fault failed
  obtain ⟨slot, -, waits⟩ := List.mem_filterMap.mp mem
  obtain ⟨ticket, -, rfl⟩ := Option.map_eq_some_iff.mp waits
  exact ⟨reason, (Except.error.inj failed).symm⟩

theorem isLoss_respond (p : Pending) (text : String) : ∀ o ∈ (p.respond text).2, o.IsLoss := by
  intro o mem fault failed
  unfold respond at mem
  split at mem
  · rw [List.mem_singleton.mp mem] at failed
    exact nomatch failed
  · exact nomatch mem

end Pending

end Wire

namespace Peer.Table

variable (t : Table)

theorem isLoss_drop (id : ConnectionId) (reason : String) :
    ∀ o ∈ (t.drop id reason).2.1, o.IsLoss := by
  unfold drop
  cases t.remove id with
  | none => exact nofun
  | some left =>
      obtain ⟨t', client, remote⟩ := left
      cases remote with
      | none => exact nofun
      | some remote => exact remote.pending.isLoss_failures reason

theorem isLoss_dropAll : ∀ o ∈ t.dropAll.2, o.IsLoss :=
  t.forall_dropAll fun t id => t.isLoss_drop id _

theorem isLoss_respond (id : ConnectionId) (text : String) :
    ∀ o ∈ (t.respond id text).2, o.IsLoss := by
  unfold respond
  dsimp only
  split
  · exact Wire.Pending.isLoss_respond _ text
  · exact nofun

end Peer.Table

/-! ## Networks -/

namespace Network

/-- All requests that have failed have lost their connections. -/
def OnlyLosses (n : Network) : Prop := ∀ o ∈ n.outcomes, o.IsLoss

variable {n n' : Network}

namespace OnlyLosses

theorem of_outcomes (h : n.OnlyLosses) (same : n'.outcomes = n.outcomes) : n'.OnlyLosses :=
  fun o mem => h o (same ▸ mem)

variable (h : n.OnlyLosses)

include h

theorem modifyServer (i : Nat) (change : Server → Server) :
    (n.modifyServer i change).OnlyLosses := h

theorem modifyPeer (i : Nat) (change : Peer.Table → Peer.Table) :
    (n.modifyPeer i change).OnlyLosses := h

theorem modifyLink (k : Nat) (change : Link → Link) : (n.modifyLink k change).OnlyLosses := h

/-- Some requests have ended. -/
theorem ended {outcomes : List Outcome} (losses : ∀ o ∈ outcomes, o.IsLoss) :
    OnlyLosses { n with outcomes := n.outcomes ++ outcomes } :=
  List.forall_mem_append.mpr ⟨h, losses⟩

theorem drop (i : Nat) (id : ConnectionId) (reason : String) : (n.drop i id reason).1.OnlyLosses :=
  (h.modifyPeer i _).ended ((n.peer i).isLoss_drop id reason)

theorem closeAll (i : Nat) : (n.closeAll i).OnlyLosses :=
  (h.modifyPeer i _).ended (n.peer i).isLoss_dropAll

theorem hangUp (k : Nat) (side : Side) (i : Nat) (id : ConnectionId) (reason : String) :
    (n.hangUp k side i id reason).OnlyLosses :=
  ((h.drop i id reason).modifyServer i _).modifyLink k _

theorem accept (target : Target) : (n.accept target).1.OnlyLosses := by
  cases target with
  | elsewhere => exact h
  | remote port replies => exact h
  | server i =>
      unfold Network.accept
      dsimp only
      split <;> exact h

/-- What a session that waits finds behind it. -/
theorem outcome? {ticket : Wire.Ticket} {fault : Fault}
    (failed : n.outcome? ticket = some (.error fault)) :
    ∃ reason, fault = .transport reason := by
  obtain ⟨o, found, result⟩ := Option.map_eq_some_iff.mp failed
  exact h o (List.mem_of_find?_eq_some found) fault result

end OnlyLosses

/-! ## What scripts do to a network -/

/-- Whichever way the act ends, all requests that have failed have lost their connections. -/
def Act.KeepsLosses {α : Type} (act : Act α) : Prop :=
  ∀ n : Network, n.OnlyLosses → (act.after n).OnlyLosses

namespace Act

variable {α β : Type}

theorem after_of_ok {act : Act α} {a : α} (h : act n = .ok a n') :
    act.after n = n' := by rw [Act.after, h]

theorem after_of_error {act : Act α} {fault : Fault} (h : act n = .error fault n') :
    act.after n = n' := by
  rw [Act.after, h]

namespace KeepsLosses

theorem entered (i : Nat) : KeepsLosses (Network.entered i) := by
  intro n losses
  unfold Act.after Network.entered
  cases (n.peer i).enteredOrFault <;> exact losses

theorem boundPort (i : Nat) : KeepsLosses (Network.boundPort i) := by
  intro n losses
  unfold Act.after Network.boundPort
  cases n.servers[i]?.bind Server.port <;> exact losses

theorem leave (i : Nat) : KeepsLosses (Network.leave i) := fun _ losses =>
  losses.modifyPeer i fun t => t.leave.1

theorem enter (i : Nat) (id : Option ConnectionId) : KeepsLosses (Network.enter i id) := by
  intro n losses
  unfold Act.after Network.enter
  cases (n.peer i).enter id <;> exact losses

theorem send (i : Nat) (id : ConnectionId) (text : String) (waits : Bool) :
    KeepsLosses (Network.send i id text waits) := by
  intro n losses
  have queued : (n.queue i id waits).OnlyLosses := losses
  unfold Act.after Network.send
  cases (n.peer i).remote id with
  | error fault => exact losses
  | ok remote =>
      dsimp only
      cases n.write remote.link (Text.Utf8.encode text) with
      | error fault => exact queued.drop i id _
      | ok frame => exact (queued.modifyLink _ _).modifyPeer i _

theorem sending_none (i : Nat) (text : String) (waits : Bool) (n : Network) :
    Network.sending i none text waits n = match (n.peer i).enteredOrFault with
      | .ok id => Network.send i id text waits n
      | .error fault => .error fault n := by
  change EStateM.bind (Network.entered i) _ n = _
  unfold EStateM.bind Network.entered
  cases (n.peer i).enteredOrFault <;> rfl

theorem sending (i : Nat) (id : Option ConnectionId) (text : String) (waits : Bool) :
    KeepsLosses (Network.sending i id text waits) := by
  cases id with
  | some id => exact send i id text waits
  | none =>
      intro n losses
      rw [Act.after, sending_none]
      cases (n.peer i).enteredOrFault with
      | error fault => exact losses
      | ok id => exact send i id text waits n losses

theorem connect (i : Nat) (host : String) (port : Nat) :
    KeepsLosses (Network.connect i host port) := by
  intro n losses
  unfold Act.after Network.connect
  cases n.reach host port with
  | error fault => exact losses
  | ok target =>
      exact OnlyLosses.accept
        (losses.modifyPeer i fun _ => ((n.peer i).add (some ⟨n.links.size, .empty⟩)).1) target

theorem start (i : Nat) : KeepsLosses (Network.start i) := by
  intro n losses
  unfold Act.after Network.start
  cases n.servers[i]? with
  | none => exact losses
  | some s =>
      dsimp only
      cases n.surroundings.bind n.ports n.freePort s.settings.host s.settings.port <;> exact losses

end KeepsLosses

end Act

/-! ## The objects -/

section Methods

variable {m : Machine Network} {settle : Network → Network}

theorem keepsLosses_acting {α : Type} {i : Nat} {act : Act α} (keeps : act.KeepsLosses)
    {next : α → Method Network} (losses : m.common.world.OnlyLosses)
    (rest : ∀ a (m' : Machine Network), m'.common.world.OnlyLosses → (next a).Keeps OnlyLosses m') :
    (acting i act next).Keeps OnlyLosses m := by
  have acted :=
    keeps (withShared i m.whole) (OnlyLosses.modifyServer (n := m.whole.world) losses i _)
  unfold acting Method.Keeps
  dsimp only
  cases ran : act (withShared i m.whole) with
  | ok a n' =>
      rw [Act.after_of_ok ran, ← world_sharedIn i m.whole n'] at acted
      exact ⟨acted, rest a _ acted⟩
  | error fault n' =>
      rw [Act.after_of_error ran, ← world_sharedIn i m.whole n'] at acted
      exact ⟨acted, trivial⟩

variable (settles : ∀ n : Network, n.OnlyLosses → (settle n).OnlyLosses)

include settles

theorem onlyLosses_whileWaiting {c : Common Network} (h : c.world.OnlyLosses) (i : Nat)
    (session : Session) :
    (whileWaiting settle i session c).world.OnlyLosses := by
  unfold whileWaiting
  split
  · exact h
  · rw [world_sharedIn]
    have awaiting : ((withShared i c).modifyServer i (·.awaiting session)).OnlyLosses := h
    exact (settles _ awaiting).modifyServer i _

theorem keepsLosses_peerMethod (i : Nat) (call : PeerCall) (losses : m.common.world.OnlyLosses) :
    (peerMethod settle i call).Keeps OnlyLosses m := by
  cases call with
  | connect host port => exact keepsLosses_acting (.connect i host port) losses fun _ _ _ => trivial
  | enter id => exact keepsLosses_acting (.enter i id) losses fun _ _ _ => trivial
  | leave =>
      change (acting i (Network.leave i) fun left => .give (.bool left.isSome)).Keeps OnlyLosses m
      exact keepsLosses_acting (.leave i) losses fun _ _ _ => trivial
  | execute text =>
    exact keepsLosses_acting (.sending i none text false) losses fun _ _ _ => trivial
  | executeTree t => exact keepsLosses_acting (.sending i none _ false) losses fun _ _ _ => trivial
  | clients => trivial
  | request id text =>
      refine keepsLosses_acting (.sending i id text true) losses fun ticket m' losses' => ?_
      refine ⟨onlyLosses_whileWaiting settles (c := m'.whole) losses' i m'.session, ?_⟩
      unfold Method.Keeps
      dsimp only
      split <;> trivial

theorem hostWith_keepsLosses : (hostWith settle).Keeps OnlyLosses := by
  intro o name args m losses
  change (if o.typeName = peerName then _ else _ : Method Network).Keeps _ m
  split
  · split
    · exact keepsLosses_peerMethod settles _ _ losses
    · trivial
  · split
    · rename_i call _
      cases call with
      | port => exact keepsLosses_acting (.boundPort _) losses fun _ _ _ => trivial
      | stop => exact ⟨losses.modifyServer _ _, trivial⟩
    · trivial

end Methods

/-! ## Steps of a network -/

section Steps

variable {host : Host Network} (keeps : host.Keeps OnlyLosses) (h : n.OnlyLosses)

include keeps h

omit keeps in
/-- The session of a seat runs. -/
theorem onlyLosses_running {α : Type} {act : Run Network α}
    (ran : Run.Keeps OnlyLosses act) (i : Nat) (seat : Seat) :
    (n.running i seat act).1.OnlyLosses := by
  unfold running
  cases found : n.servers[i]? with
  | none => exact h
  | some s =>
      dsimp only
      cases s.idle.lookup seat with
      | none => exact h
      | some session =>
          have inside := ran (n.machineOf i s seat session) (world_machineOf ▸ h.modifyServer i _)
          dsimp only
          split <;> rename_i ended <;>
            rw [show act (n.machineOf i s seat session) = _ from ended] at inside <;>
            exact OnlyLosses.modifyServer inside i _

theorem onlyLosses_evaluate (i : Nat) (seat : Seat) (text : String) :
    (evaluate host n i seat text).1.OnlyLosses := by
  unfold evaluate
  cases n.servers[i]? with
  | none => exact h
  | some s => exact onlyLosses_running h (keeps_answer keeps _ _ text) i seat

theorem onlyLosses_receive {α : Type} (write : Bytes → Except Fault α) (i : Nat) (id : ConnectionId)
    (text : String) : (receive host write n i id text).1.OnlyLosses := by
  have ran := onlyLosses_evaluate keeps (h.modifyPeer i (·.noteReceived id text)) i
    (.connection id) text
  unfold receive
  generalize evaluate host (n.modifyPeer i (·.noteReceived id text)) i (.connection id) text =
    result at ran ⊢
  obtain ⟨n', stop | reply⟩ := result
  · exact ran
  · dsimp only at ran ⊢
    cases write (Text.Utf8.encode reply) with
    | error fault => exact ran.modifyPeer i _
    | ok a => exact (ran.modifyPeer i _).modifyPeer i _

theorem onlyLosses_serveStep (k : Nat) (side : Side) (i : Nat) (id : ConnectionId)
    (arrival : Arrival) (step : serveStep? host n k side i id arrival = some n') :
    n'.OnlyLosses := by
  unfold serveStep? at step
  split at step
  · exact nomatch step
  cases arrival with
  | pending => exact nomatch step
  | ended fault =>
      cases step
      exact h.hangUp k side i id _
  | message bytes rest =>
      have received := onlyLosses_receive keeps (h.modifyLink k (·.leave side rest))
        ((n.modifyLink k (·.leave side rest)).write k) i id (textOf bytes)
      dsimp only at step
      split at step
      · rename_i known
        rw [known] at received
        cases step
        exact received.modifyLink _ _
      · rename_i known
        rw [known] at received
        cases step
        exact received.hangUp k side i id _
      · rename_i known
        rw [known] at received
        split at step
        · cases step
          exact received.modifyServer i _
        · cases step
          exact (received.modifyServer i _).modifyLink _ _

omit keeps in
theorem onlyLosses_readStep (k : Nat) (side : Side) (i : Nat) (id : ConnectionId)
    (arrival : Arrival) (step : n.readStep? k side i id arrival = some n') : n'.OnlyLosses := by
  cases arrival with
  | pending => exact nomatch step
  | ended fault =>
      cases step
      exact (h.drop i id _).modifyLink _ _
  | message bytes rest =>
      cases step
      exact (h.modifyPeer i fun _ => ((n.peer i).respond id (textOf bytes)).1).ended
        ((n.peer i).isLoss_respond id (textOf bytes))

omit keeps in
theorem onlyLosses_remoteStep (k : Nat) (side : Side) (replies : List Bytes) (arrival : Arrival)
    (step : n.remoteStep? k side replies arrival = some n') : n'.OnlyLosses := by
  cases arrival with
  | pending => exact nomatch step
  | ended fault =>
      cases step
      exact h.modifyLink _ _
  | message bytes rest =>
      cases replies <;> cases step <;> exact h.modifyLink _ _

theorem onlyLosses_endStep (k : Nat) (side : Side) (step : endStep? host n k side = some n') :
    n'.OnlyLosses := by
  unfold endStep? at step
  split at step
  · exact nomatch step
  split at step
  · split at step
    · exact nomatch step
    · exact onlyLosses_remoteStep h k side _ _ step
    · split at step
      · cases step
        exact (h.modifyServer _ _).modifyLink _ _
      · exact onlyLosses_readStep h k side _ _ _ step
      · exact onlyLosses_serveStep keeps h k side _ _ _ step
  · exact nomatch step

theorem onlyLosses_step (step : step? host n = some n') : n'.OnlyLosses := by
  obtain ⟨k, -, found⟩ := List.exists_of_findSome?_eq_some step
  obtain ⟨side, -, found⟩ := List.exists_of_findSome?_eq_some found
  exact onlyLosses_endStep keeps h k side found

end Steps

/-- However long a network goes on. -/
theorem onlyLosses_settleFor (steps : Nat) (n : Network) (h : n.OnlyLosses) :
    (settleFor steps n).OnlyLosses := by
  induction steps generalizing n with
  | zero => exact h
  | succ steps ih =>
      rw [settleFor]
      split
      · exact h
      · rename_i n' step
        exact ih n' (onlyLosses_step (hostWith_keepsLosses ih) h step)

/-- Whatever happens to a network, a request fails only because its connection goes away. -/
theorem Arises.onlyLosses (h : n.Arises) : n.OnlyLosses := by
  induction h with
  | amid surroundings => exact nofun
  | surround surroundings _ ih => exact ih
  | addServer _ _ added ih =>
      obtain ⟨server, -, rfl⟩ := addServer_eq_ok added
      exact ih
  | start i _ ih => exact Act.KeepsLosses.start i _ ih
  | stop i _ ih => exact ih.modifyServer i _
  | console i _ ih => exact ih.modifyServer i _
  | line steps i line _ ih =>
      exact onlyLosses_running ih
        (keeps_answerLine (hostWith_keepsLosses (onlyLosses_settleFor steps)) line) i _
  | addRemote replies _ ih => exact ih
  | @attach n n' i k _ attached ih =>
      have accepted : (n.accept (.server i)).1.OnlyLosses := ih.accept (.server i)
      obtain rfl := attach_eq_some attached
      exact accepted
  | connect i host port _ ih => exact Act.KeepsLosses.connect i host port _ ih
  | enter i id _ ih => exact Act.KeepsLosses.enter i id _ ih
  | leave i _ ih => exact Act.KeepsLosses.leave i _ ih
  | close i id _ ih => exact ih.drop i id _
  | closeAll i _ ih => exact ih.closeAll i
  | send i id text waits _ ih => exact Act.KeepsLosses.sending i id text waits _ ih
  | link k change _ ih => exact ih.modifyLink k change
  | step _ step ih => exact onlyLosses_step (hostWith_keepsLosses (onlyLosses_settleFor _)) ih step

end Network

end PeerScript
