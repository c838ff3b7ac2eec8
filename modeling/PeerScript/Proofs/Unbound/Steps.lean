import PeerScript.Proofs.Unbound.Objects

/-!
# A network goes on

A session that runs comes back to its seat in its room, and nobody else has been there.  So an
evaluation keeps a network settled, and so does every step and all that others do from outside.
What the account tells of a connection is told again behind each message to it.
-/

set_option autoImplicit false

namespace PeerScript.Network

open Service (Server Seat peerName serverName)
open Peer (ConnectionId)
open Wire (Bytes Outcome)

variable {n n' : Network} {i : Nat} {seat : Seat} {s : Server} {session : Session} {a : Account}
  {late : String → Prop}

/-! ## Evaluations -/

/-- Alone in its room, a session that leaves its seat finds all names but late ones. -/
theorem Settled.honours_machineOf (h : n.Settled a) (allows : a.Allows i seat)
    (seated : n.Seated i seat s session) (rests : session.Rests i late s.store) :
    (n.machineOf i s seat session).Honours (outlook a i session.ambient late) where
  toStands := rests (n.machineOf i s seat session).common store_machineOf
  shared := by
    have orderly := h.servers i s seated.found
    have here := mem_of_idle seated.idle
    change (withShared i (n.machineOf i s seat session).common).Hosts a i session.ambient
    rw [withShared_machineOf seated.found]
    refine ⟨h.vacated allows, s.vacated seat, servers_modifyServer seated.found _,
      orderly.rooms _ here, fun entry mem same => ?_⟩
    have elsewhere := (List.mem_filter.mp mem).2
    have there := orderly.apart entry (List.mem_of_mem_filter mem) _ here same
    simp [there] at elsewhere

/-- A session that honours the outlook from its room can take a seat again. -/
theorem settled_seatedAgain {m : Machine Network} {room : FrameId}
    (honours : m.Honours (outlook a i room late)) (allows : a.Allows i seat)
    (told : a.tells i seat (seatedAgain i seat m)) :
    (seatedAgain i seat m).Settled a ∧
      ∃ s', (seatedAgain i seat m).Seated i seat s' m.session ∧
      m.session.Rests i late s'.store := by
  have hosts : (withShared i m.common).Hosts a i room := honours.shared
  obtain ⟨s, found, store, -, orderly, isRoom, vacant⟩ := hosts.shared
  have ambient : m.session.ambient = room := honours.ambient
  have stands : m.Stands (m.session.footing i late) := by
    rw [Session.footing, ambient]
    exact honours.toStands
  have rests : m.session.Rests i late s.store := store ▸ .of_stands stands
  have put : Server.IsOrderly i { s with idle := Association.put seat m.session s.idle } :=
    orderly.put (ambient ▸ isRoom) (ambient ▸ vacant) (rests.mono fun _ _ => trivial)
      fun v mem => (honours.tends.stack v mem).good.within
  have away := allows.away _ hosts.holds.frame
  have alone : ∀ t : Server, t.LeavesAlone ((withShared i m.common).Holding a.ledger.links i)
      { t with idle := Association.put seat m.session t.idle } := fun t =>
    ⟨rfl, rfl, rfl, .refl _, rfl, Nat.le_refl _, fun other own => by
      rw [Association.lookup_put, if_neg fun same : other = seat => away (same ▸ own)],
      fun _ _ _ _ => .refl _ _⟩
  rw [seatedAgain_eq] at told ⊢
  refine ⟨hosts.modifyServer (fun t there => ?_) (fun t there other session idle => ?_)
    (fun t _ _ session idle => ?_)
    (hosts.holds.incident (.server (fun _ _ => rfl) fun t _ => alone t)),
    _, ⟨servers_modifyServer found _, by simp [Association.lookup_put]⟩, rests⟩
  · obtain rfl : s = t := Option.some.inj (found.symm.trans there)
    exact put
  · change (Association.put seat _ t.idle).lookup _ = _ at idle
    rw [Association.lookup_put] at idle
    split at idle
    · rename_i same
      exact .inr (same ▸ told)
    · exact .inl ⟨idle, .refl _ _⟩
  · change ∃ session', (Association.put seat _ t.idle).lookup _ = some session'
    rw [Association.lookup_put]
    split
    · exact ⟨_, rfl⟩
    · exact ⟨session, idle⟩

section Settling

variable {settle : Network → Network} (settles : ∀ n : Network, n.Settled a → (settle n).Settled a)
  (proceeds : ∀ n : Network, n.Owned → n.Proceeds (fun _ => True) (settle n))

include settles proceeds

/-- The session whose text is evaluated stands behind it, when the names that the text binds are
late. -/
theorem Settled.evaluate (h : n.Settled a) (allows : a.Allows i seat)
    (seated : n.Seated i seat s session) (rests : session.Rests i late s.store) (text : String)
    (awaits : (outlook a i session.ambient late).Awaits s.settings.language text
      (n.machineOf i s seat session))
    (told : a.tells i seat (Network.evaluate (hostWith settle) n i seat text).1) :
    (Network.evaluate (hostWith settle) n i seat text).1.Settled a ∧
      ∃ s' session',
        (Network.evaluate (hostWith settle) n i seat text).1.Seated i seat s' session' ∧
        session'.Rests i late s'.store := by
  have ran :=
    honours_answer (hostWith_honours settles proceeds) (h.honours_machineOf allows seated rests)
    s.settings.stackPolicy awaits
  rw [evaluate_eq _ text seated.found seated.idle] at told ⊢
  rcases ran.after with ⟨reply, m, ended, -, honours, -⟩ | ⟨stop, m, ended, -, honours, -⟩
  all_goals
    rw [ended] at told ⊢
    obtain ⟨settled, s', seated', rests'⟩ := settled_seatedAgain honours allows told
    exact ⟨settled, s', _, seated', rests'⟩

/-- A name that the text of a session does not find is one that is bound late. -/
theorem Settled.late_of_unbound (h : n.Settled a) (allows : a.Allows i seat)
    (seated : n.Seated i seat s session) (rests : session.Rests i late s.store) {text : String}
    {t : Tree} {serial : Nat} (translated : translation s.settings.language text
      (n.machineOf i s seat session) = .ok (t, serial))
    (awaits : ∀ name ∈ t.defines, late name) {name : String} {m' : Machine Network}
    (failed : runScript (hostWith settle) t.bare ((n.machineOf i s seat session).numbered serial) =
      .error (.failed (.unbound name)) m') : late name := by
  have honours := h.honours_machineOf allows seated rests
  have numbered : ((n.machineOf i s seat session).numbered serial).Honours
      (outlook a i session.ambient late) :=
    honours.narrowed rfl rfl rfl (List.Subset.refl _) rfl
      (Script.sequence_of_parse_settles translated).1 rfl
  have covers : ((n.machineOf i s seat session).numbered serial).Covers
      (outlook a i session.ambient late) session.ambient t.bare :=
    (n.machineOf i s seat session).covers_of_translation translated awaits
  have ran := honours_runScript (hostWith_honours settles proceeds) numbered covers
  rw [Run.Honours, failed] at ran
  exact ran.2.2 name rfl

/-- A line of the console runs in its session, which is back on its seat behind it. -/
theorem Settled.runs_seated (h : n.Settled a) (free : a.IsFree i)
    (seated : n.Seated i .console s session) (line : String) :
    (n.running i .console (answerLine (hostWith settle) line)).1.Settled a ∧
      ∃ s' session', (n.running i .console (answerLine (hostWith settle) line)).1.Seated i .console
        s' session' := by
  have rests := (h.servers i s seated.found).rests _ (mem_of_idle seated.idle)
  have ran : Run.Honours _ _ (answerLine (hostWith settle) line) _ :=
    honours_answerLine (hostWith_honours settles proceeds)
      (h.honours_machineOf free.allows seated rests)
      fun _ _ _ _ _ => trivial
  rw [running_eq seated.found seated.idle]
  rcases ran.after with ⟨reply, m, ended, -, honours, -⟩ | ⟨stop, m, ended, -, honours, -⟩
  all_goals
    rw [ended]
    obtain ⟨settled, s', seated', -⟩ := settled_seatedAgain honours free.allows (free.2 _)
    exact ⟨settled, s', _, seated'⟩

/-- Also without a console a line leaves the network settled. -/
theorem Settled.runs_line (h : n.Settled a) (free : a.IsFree i) (line : String) :
    (n.running i .console (answerLine (hostWith settle) line)).1.Settled a := by
  cases found : n.servers[i]? with
  | none =>
      have step : n.running i .console (answerLine (hostWith settle) line) =
          (n, .error .unfinished) := by
        simp only [running, found]
      rw [step]
      exact h
  | some s =>
      cases idle : s.idle.lookup Seat.console with
      | none =>
          have step : n.running i .console (answerLine (hostWith settle) line) =
              (n, .error .unfinished) := by
            simp only [running, found, idle]
          rw [step]
          exact h
      | some session => exact (h.runs_seated settles proceeds free ⟨found, idle⟩ line).1

end Settling

/-! ## Steps -/

section Steps

variable {steps : Nat}
  (settles : ∀ (a : Account) (n : Network), n.Settled a → (settleFor steps n).Settled a)

include settles

theorem Settled.evaluates (h : n.Settled a) {i : Nat} {id : ConnectionId}
    (allows : a.Allows i (.connection id)) (text : String) :
    (Network.evaluate (hostWith (settleFor steps)) n i (.connection id) text).1.Settled a := by
  cases found : n.servers[i]? with
  | none =>
      have step : Network.evaluate (hostWith (settleFor steps)) n i (.connection id) text =
          (n, .error .unfinished) := by
        simp only [Network.evaluate, found]
      rw [step]
      exact h
  | some s =>
      cases idle : s.idle.lookup (.connection id) with
      | none =>
          have step : Network.evaluate (hostWith (settleFor steps)) n i (.connection id) text =
              (n, .error .unfinished) := by
            simp only [Network.evaluate, found, running, idle]
          rw [step]
          exact h
      | some session =>
          exact (h.evaluate (settles a) (proceeds_settleFor steps) allows
            ⟨found, idle⟩
            ((h.servers i s found).rests _ (mem_of_idle idle)) text (fun _ _ _ _ _ => trivial)
            (a.message steps text (h.told i id s session ⟨found, idle⟩) ⟨found, idle⟩)).1

theorem Settled.receive {α : Type} (h : n.Settled a) (write : Bytes → Except Fault α) {i : Nat}
    {id : ConnectionId} (allows : a.Allows i (.connection id)) (text : String) :
    (Network.receive (hostWith (settleFor steps)) write n i id text).1.Settled a := by
  have noted : (n.modifyPeer i (·.noteReceived id text)).Settled a :=
    h.noted fun s _ => s.peer.notes_noteReceived id text
  have ran := noted.evaluates settles allows text
  unfold Network.receive
  generalize Network.evaluate (hostWith (settleFor steps))
    (n.modifyPeer i (·.noteReceived id text)) i (.connection id) text = result at ran ⊢
  obtain ⟨n', stop | reply⟩ := result
  · exact ran
  · dsimp only at ran ⊢
    cases write (Text.Utf8.encode reply) with
    | error fault => exact ran.noted fun s _ => s.peer.notes_request id text
    | ok a =>
        exact (ran.noted fun s _ => s.peer.notes_noteSent id reply).noted fun s _ =>
          s.peer.notes_request id text

variable {k : Nat} (link : ¬ a.ledger.links k)

include link

theorem Settled.serveStep (h : n.Settled a) (side : Side) {i : Nat} {id : ConnectionId}
    (allows : a.Allows i (.connection id)) (arrival : Arrival)
    (step : serveStep? (hostWith (settleFor steps)) n k side i id arrival = some n') :
    n'.Settled a := by
  unfold serveStep? at step
  split at step
  · exact nomatch step
  cases arrival with
  | pending => exact nomatch step
  | ended fault =>
      cases step
      exact h.hangUp side _ link allows
  | message bytes rest =>
      have received := (h.linked link (party_leave side rest)).receive settles
        ((n.modifyLink k (·.leave side rest)).write k) allows (textOf bytes)
      dsimp only at step
      split at step
      · rename_i known
        rw [known] at received
        cases step
        exact received.linked link (party_write side _)
      · rename_i known
        rw [known] at received
        cases step
        exact received.hangUp side _ link allows
      · rename_i known
        rw [known] at received
        have vacated := received.vacated allows
        split at step
        · cases step
          exact vacated
        · cases step
          exact vacated.linked link (party_close side)

omit settles in
theorem Settled.readStep (h : n.Settled a) (side : Side) {i : Nat} {id : ConnectionId}
    (held : n.HeldBy k side i id) (allows : a.Allows i (.connection id)) (arrival : Arrival)
    (step : n.readStep? k side i id arrival = some n') : n'.Settled a := by
  cases arrival with
  | pending => exact nomatch step
  | ended fault =>
      cases step
      exact (h.drop id _).linked link (party_close side)
  | message bytes rest =>
      cases step
      exact (h.take held (allows.away n h.holds.frame) (textOf bytes)).linked link
        (party_leave side rest)

omit settles in
theorem Settled.remoteStep (h : n.Settled a) {l : Link} (found : n.links[k]? = some l) {side : Side}
    {replies : List Bytes} (scripted : (l.side side).party = .scripted replies) (arrival : Arrival)
    (step : n.remoteStep? k side replies arrival = some n') : n'.Settled a := by
  cases arrival with
  | pending => exact nomatch step
  | ended fault =>
      cases step
      exact h.linked link (party_close side)
  | message bytes rest =>
      cases replies with
      | nil =>
          cases step
          exact h.linked link (party_close side)
      | cons reply more =>
          cases step
          refine h.modifyLink k _ (h.holds.incident (.link (fun mine => absurd mine link)
            fun l' other i id there => ?_))
          obtain rfl : l = l' := Option.some.inj (found.symm.trans there)
          rw [party_write]
          by_cases same : other = side
          · subst same
            rw [scripted]
            cases other <;> exact ⟨nofun, nofun⟩
          · cases side <;> cases other <;> first | exact absurd rfl same | exact Iff.rfl

/-- What the holder of an end does that the ledger does not leave to its record. -/
theorem Settled.endStep_apart (h : n.Settled a) (side : Side)
    (allows : ∀ i id, n.HeldBy k side i id → a.Allows i (.connection id))
    (step : endStep? (hostWith (settleFor steps)) n k side = some n') : n'.Settled a := by
  unfold endStep? at step
  split at step
  · exact nomatch step
  rename_i l found
  split at step
  · split at step
    · exact nomatch step
    · exact h.remoteStep link found ‹_› _ step
    · rename_i i id party
      have held : n.HeldBy k side i id := ⟨l, found, party⟩
      have allows := allows i id held
      split at step
      · cases step
        exact (h.vacated allows).linked link (party_close side)
      · exact h.readStep link side held allows _ step
      · exact h.serveStep settles link side allows _ step
  · exact nomatch step

omit link

theorem Settled.endStep (h : n.Settled a) (k : Nat) (side : Side)
    (step : endStep? (hostWith (settleFor steps)) n k side = some n') : n'.Settled a := by
  by_cases mine : a.ledger.links k
  · -- the record is left aside meanwhile, and told again behind the whole step
    have before := h.withLedger h.holds.background.remembering
    have settled := before.endStep_apart settles (fun none => none) side
      (fun _ _ held => Account.allows_connection fun _ => Ledger.away held fun none => none) step
    obtain ⟨frame, keeps⟩ := settled.holds.frame
    exact settled.withLedger
      ⟨frame, a.ledger.record_step h.holds.frame h.holds.record mine step frame keeps⟩
  · have before := h.withLedger h.holds.remembering
    have other : ¬ (a.withLedger (a.ledger.remembering n)).ledger.links k := mine
    have settled := before.endStep_apart settles other side
      (fun _ _ held => Account.allows_connection fun _ => Ledger.away held mine) step
    exact settled.withLedger ⟨settled.holds.frame.1, settled.holds.record⟩

theorem Settled.step (h : n.Settled a) (step : step? (hostWith (settleFor steps)) n = some n') :
    n'.Settled a := by
  obtain ⟨k, -, found⟩ := List.exists_of_findSome?_eq_some step
  obtain ⟨side, -, found⟩ := List.exists_of_findSome?_eq_some found
  exact h.endStep settles k side found

end Steps

/-- However long a network goes on, it stays settled. -/
theorem settled_settleFor (steps : Nat) (a : Account) (n : Network) (h : n.Settled a) :
    (settleFor steps n).Settled a := by
  induction steps generalizing a n with
  | zero => exact h
  | succ steps ih =>
      rw [settleFor]
      split
      · exact h
      · rename_i n' step
        exact ih a n' (h.step ih step)

end PeerScript.Network
