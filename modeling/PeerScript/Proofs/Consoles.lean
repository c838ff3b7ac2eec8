import PeerScript.Proofs.Unbound.Histories

/-!
# What goes on around a console

Between two lines of a console, and while one of them waits for an answer, anything may happen in
the network: others connect, send and answer, sessions on connections run, consoles of other servers
get lines, and those outside write whatever they like on their links.  None of this runs the session
of the console, whose seat is its own.  So it finds its stack and its frames as it has left them:
`Elsewhere.meanwhile`.
-/

set_option autoImplicit false

namespace PeerScript

open Service (Server Seat)
open Peer (ConnectionId)
open Wire (Bytes)

namespace Network

variable {n n' n'' : Network} {i j : Nat} {seat : Seat} {s : Server}
  {session : Session} {a : Account}

theorem Meanwhile.refl (seated : n.Seated i seat s session) : n.Meanwhile i seat n :=
  ⟨s, s, session, seated, seated, .refl _ _⟩

theorem Meanwhile.trans (h : n.Meanwhile i seat n') (k : n'.Meanwhile i seat n'') :
    n.Meanwhile i seat n'' := by
  obtain ⟨s, s', session, before, between, spared⟩ := h
  obtain ⟨t, s'', other, between', after, spared'⟩ := k
  obtain ⟨rfl, rfl⟩ := between.unique between'
  exact ⟨s, s'', _, before, after, spared.trans spared'⟩

/-- The console of the server has not run since, and consoles of other servers may do as they
like. -/
def Account.since (n : Network) (i : Nat) : Account where
  tells j seat n' := j = i → seat = .console → n.Meanwhile i .console n'
  rests j := j = i
  opened _ _ := nofun
  message _ _ _ _ := nofun
  meanwhile tells between _ same console := by
    subst same console
    exact (tells rfl rfl).trans between

/-! ## What happens -/

/-- One of the things that happen without the console of the server. -/
inductive Happens (i : Nat) (n : Network) : Network → Prop
  | step {n' : Network} {steps : Nat} : step? (hostWith (settleFor steps)) n = some n' →
    Happens i n n'
  | link (k : Nat) (change : Link → Link) : Happens i n (n.modifyLink k change)
  | surround (surroundings : Surroundings) : Happens i n { n with surroundings }
  | attach {n' : Network} {j k : Nat} : n.attach j = some (n', k) → Happens i n n'
  | addRemote (replies : List Bytes) : Happens i n (n.addRemote replies).1
  | start (j : Nat) : Happens i n ((start j).after n)
  | stop (j : Nat) : Happens i n (n.modifyServer j Server.stop)
  | console {j : Nat} : j ≠ i → Happens i n (n.modifyServer j (·.seated .console))
  | line {j : Nat} (steps : Nat) (line : String) : j ≠ i →
      Happens i n (n.running j .console (answerLine (hostWith (settleFor steps)) line)).1
  | connect (j : Nat) (host : String) (port : Nat) : Happens i n ((connect j host port).after n)
  | enter (j : Nat) (id : Option ConnectionId) : Happens i n ((enter j id).after n)
  | leave (j : Nat) : Happens i n ((leave j).after n)
  | close (j : Nat) (id : ConnectionId) : Happens i n (n.close j id).1
  | closeAll (j : Nat) : Happens i n (n.closeAll j)
  | send (j : Nat) (id : Option ConnectionId) (text : String) (waits : Bool) :
      Happens i n ((sending j id text waits).after n)

/-- What happens without the console of the server, one thing after another. -/
abbrev Elsewhere (i : Nat) : Network → Network → Prop := Relation.ReflTransGen (Happens i)

/-- A network that goes on does so without its consoles. -/
theorem elsewhere_settleFor (steps i : Nat) (n : Network) : n.Elsewhere i (settleFor steps n) := by
  induction steps generalizing n with
  | zero => exact .refl
  | succ steps ih =>
      rw [settleFor]
      split
      · exact .refl
      · rename_i n' step
        exact .head (.step step) (ih n')

/-! ## Everything stays settled -/

theorem Happens.settled (h : Happens i n n') (free : ∀ j, j ≠ i → a.IsFree j)
    (blank : ∀ n, a.ledger.Holds n) (settled : n.Settled a) : n'.Settled a := by
  cases h with
  | step step => exact settled.step (settled_settleFor _) step
  | link k change => exact settled.modifyLink k change (blank _)
  | surround surroundings => exact settled.around rfl rfl rfl rfl
  | attach attached => exact settled.attach attached
  | addRemote replies => exact settled.around rfl rfl rfl rfl
  | start j => exact (Act.Settles.start j).after settled
  | stop j => exact settled.stop j
  | console other => exact settled.console (free _ other)
  | line steps line other =>
      exact settled.runs_line (settled_settleFor steps a) (proceeds_settleFor steps)
        (free _ other) line
  | connect j host port => exact (settled.connect (blank _)).after
  | enter j id => exact (Act.Settles.enter j id).after settled
  | leave j => exact (Act.Settles.leave j).after settled
  | close j id => exact settled.drop id _
  | closeAll j => exact settled.closeAll j
  | send j id text waits => exact (Act.Settles.sending j id text waits).after settled

theorem Elsewhere.settled (h : n.Elsewhere i n') (free : ∀ j, j ≠ i → a.IsFree j)
    (blank : ∀ n, a.ledger.Holds n) (settled : n.Settled a) : n'.Settled a := by
  induction h with
  | refl => exact settled
  | tail _ happens ih => exact happens.settled free blank ih

theorem Elsewhere.sound (h : n.Elsewhere i n') (sound : n.Sound) : n'.Sound :=
  (h.settled (fun j _ => Account.OfConnections.free j) Account.OfConnections.blank
    sound.silent).toSound

/-- **What goes on elsewhere leaves a console alone**: it is on its seat, with the stack and the
frames that it had. -/
theorem Elsewhere.meanwhile (h : n.Elsewhere i n') (sound : n.Sound)
    (seated : n.Seated i .console s session) :
    n.Meanwhile i .console n' := by
  have free : ∀ j, j ≠ i → (Account.since n i).IsFree j := fun j other =>
    ⟨other, fun _ same => absurd same other⟩
  have before : n.Settled (Account.since n i) := by
    refine ⟨sound, fun j seat t other there same console => ?_, fun j same => ?_, trivial,
      trivial⟩
    · exact .refl seated
    · exact ⟨s, session, same ▸ seated⟩
  have after := h.settled free (fun _ => ⟨trivial, trivial⟩) before
  obtain ⟨t, other, there⟩ := after.rests i rfl
  exact after.tells i .console t other there rfl rfl

/-! ## Everybody writes at home -/

theorem Act.Idles.after {α : Type} {act : Act α} (idles : act.Idles) (n : Network) :
    n.Idles (act.after n) := by
  have ended := idles n
  unfold Act.after
  cases ran : act n with
  | ok x n' | error fault n' =>
      rw [ran] at ended
      exact ended

theorem Act.Idles.start (j : Nat) : Act.Idles (Network.start j) := by
  intro n
  unfold Network.start
  cases n.servers[j]? with
  | none => exact .refl n
  | some s =>
      dsimp only
      cases n.surroundings.bind n.ports n.freePort s.settings.host s.settings.port with
      | ok port =>
          have listening : n.Idles (n.modifyServer j (·.listen port)) :=
            .modified (fun _ => rfl) fun _ => List.Subset.refl _
          exact listening.trans (.of_servers rfl)
      | error failed => exact .refl n

namespace Idles

theorem attach {k : Nat} (attached : n.attach j = some (n', k)) : n.Idles n' := by
  have accepted := Act.Idles.accept n (.server j)
  obtain rfl := attach_eq_some attached
  exact accepted.trans (.of_servers rfl)

theorem closeAll (n : Network) (j : Nat) : n.Idles (n.closeAll j) := by
  have changed : n.Idles (n.modifyPeer j fun _ => (n.peer j).dropAll.1) := .modifyPeer n _
  exact changed.trans (.of_servers rfl)

end Idles

/-- Whatever happens without the console of a server, the network goes on. -/
theorem Happens.goes (h : Happens i n n') : n.Goes n' := by
  cases h with
  | step step => exact goes_step (goes_settleFor _) step
  | link k change => exact .of_idles (.modifyLink n k change)
  | surround surroundings => exact .of_idles (.of_servers rfl)
  | attach attached => exact .of_idles (.attach attached)
  | addRemote replies => exact .of_idles (.of_servers rfl)
  | start j => exact .of_idles ((Act.Idles.start j).after n)
  | stop j => exact .of_idles (.modified (fun _ => rfl) fun _ => List.Subset.refl _)
  | console other => exact .of_idles (.modifyServer fun s _ => .seated s .console)
  | line steps line other =>
    exact .run _ .console (goes_settleFor steps) (.inr ⟨line, rfl⟩) (.rest _)
  | connect j host port => exact .of_idles ((Act.Idles.connect j host port).after n)
  | enter j id => exact .of_idles ((Act.Idles.enter j id).after n)
  | leave j => exact .of_idles ((Act.Idles.leave j).after n)
  | close j id => exact .of_idles (.drop n j id _)
  | closeAll j => exact .of_idles (.closeAll n j)
  | send j id text waits => exact .of_idles ((Act.Idles.sending j id text waits).after n)

theorem Elsewhere.goes (h : n.Elsewhere i n') : n.Goes n' := by
  induction h with
  | refl => exact .rest n
  | tail _ happens ih => exact ih.trans happens.goes

theorem Elsewhere.proceeds (h : n.Elsewhere i n') (owned : n.Owned) :
    n.Proceeds (fun _ => True) n' := h.goes.proceeds owned

end Network

end PeerScript
