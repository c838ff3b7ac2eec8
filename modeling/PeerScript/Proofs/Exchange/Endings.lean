import PeerScript.Proofs.Exchange

/-!
# Every request ends once

A request that waits has its slot in the queue.  Whoever takes the slot out, the reader at its next
message, the reader at its end, or the drop of the queue, hands the request an outcome.  So once
nobody owns the queue no request waits any more.

`Accounted` says where each call stands.  It is kept by every act, whatever the remote sends and
whatever cannot be written, and `requests_end` reads off it that every request has ended exactly
once when the reader has ended, the connection is removed and no call sends any more.
-/

set_option autoImplicit false

namespace PeerScript

/-! ## What the reader owes -/

namespace Wire

/-- All who wait are told when all fail. -/
theorem Pending.tickets_failures {p : Pending} {reason : String} {t : Ticket}
    (h : some t ∈ p.slots) : t ∈ (p.failures reason).map Outcome.ticket := by
  simp only [Pending.failures, List.map_filterMap, List.mem_filterMap]
  exact ⟨some t, h, rfl⟩

/-- A response takes the oldest slot, and its owner is told. -/
theorem Pending.respond_keeps {p : Pending} {text : String} {t : Ticket} (h : some t ∈ p.slots) :
    some t ∈ (p.respond text).1.slots ∨ t ∈ (p.respond text).2.map Outcome.ticket := by
  obtain ⟨slots⟩ := p
  cases slots with
  | nil => cases h
  | cons slot slots =>
      rcases List.mem_cons.1 h with rfl | hlater
      · exact .inr List.mem_cons_self
      · refine .inl ?_
        cases slot <;> exact hlater

/-- No slot is lost: it stays in the queue, or its owner is told how the request ended. -/
theorem Reader.step_keeps (r : Reader) (s : Signal) :
    ∃ told, (r.step s).outcomes = r.outcomes ++ told ∧
      ∀ t, some t ∈ r.pending.slots →
        some t ∈ (r.step s).pending.slots ∨ t ∈ told.map Outcome.ticket := by
  have idle : ∃ told, r.outcomes = r.outcomes ++ told ∧ ∀ t, some t ∈ r.pending.slots →
      some t ∈ r.pending.slots ∨ t ∈ told.map Outcome.ticket :=
    ⟨[], (List.append_nil _).symm, fun _ h => .inl h⟩
  have ends : ∀ reason, ∃ told, (r.finish reason).outcomes = r.outcomes ++ told ∧
      ∀ t, some t ∈ r.pending.slots →
        some t ∈ (r.finish reason).pending.slots ∨ t ∈ told.map Outcome.ticket :=
    fun reason => ⟨_, rfl, fun _ h => .inr (Pending.tickets_failures h)⟩
  cases s with
  | sent slot =>
      exact ⟨[], (List.append_nil _).symm, fun _ h => .inl (List.mem_append_left _ h)⟩
  | message bytes =>
      simp only [Reader.step]
      split
      · exact idle
      · exact ⟨_, rfl, fun _ h => Pending.respond_keeps h⟩
  | readFailed | closerDropped =>
      simp only [Reader.step]
      split
      · exact idle
      · exact ends _
  | closeFlag closed =>
      simp only [Reader.step]
      split
      · exact idle
      · exact ends _

end Wire

namespace Peer

open Wire (Outcome Reader Signal Slot Ticket)

/-- Whether the slot of a call is queued and its text was not refused. -/
def Stage.hasQueued : Stage → Bool
  | queued | tried none | unlocked none | noted none => true
  | _ => false

theorem Stage.hasRemote_of_hasQueued {stage : Stage} (h : stage.hasQueued = true) :
    stage.hasRemote = true := by
  cases stage <;> first | rfl | cases h

theorem Stage.hasRemote_of_quiet {stage : Stage} (h : stage.isSending = false) :
    stage.hasRemote = false := by
  cases stage <;> first | rfl | cases h

theorem Stage.over_of_quiet {stage : Stage} (h : stage.isSending = false)
    (still : stage ≠ .waiting) : stage = .closed := by
  cases stage <;> first | rfl | exact absurd rfl still | cases h

namespace Exchange

variable {x : Exchange}

/-! ## Calls after a change -/

theorem calls_advance (x : Exchange) (t u : Ticket) (stage : Stage) :
    (x.advance t stage).calls[u]? =
      if t = u then x.calls[u]?.map fun c => { c with stage := stage } else x.calls[u]? := by
  rw [advance, List.getElem?_modify]
  split <;> simp

/-- The call at a number is the one that was brought to a stage, or it is as it was. -/
theorem advanced {t u : Ticket} {stage : Stage} {c : Call}
    (h : (x.advance t stage).calls[u]? = some c) :
    (u = t ∧ ∃ c₀, x.calls[t]? = some c₀ ∧ c = { c₀ with stage := stage }) ∨
      (u ≠ t ∧ x.calls[u]? = some c) := by
  rw [calls_advance] at h
  by_cases htu : t = u
  · subst htu
    rw [if_pos rfl, Option.map_eq_some_iff] at h
    obtain ⟨c₀, hc₀, rfl⟩ := h
    exact .inl ⟨rfl, c₀, hc₀, rfl⟩
  · rw [if_neg htu] at h
    exact .inr ⟨Ne.symm htu, h⟩

/-! ## The account of all calls -/

/-- Where each call stands.  The outcomes `told` are those that are still to be handed out. -/
structure Accounted (x : Exchange) (told : List Outcome) : Prop where
  /-- no call ends twice -/
  once : (x.endings.map Outcome.ticket).Nodup
  /-- a call that has ended is over -/
  closed : ∀ o ∈ x.endings, ∃ c, x.calls[o.ticket]? = some c ∧ c.stage = .closed
  /-- a request that is over has ended -/
  ended : ∀ {t : Ticket} {c : Call}, x.calls[t]? = some c → c.waits = true → c.stage = .closed →
    t ∈ x.endings.map Outcome.ticket
  /-- a request that waits has its slot in the queue, or is to be told -/
  waiting : ∀ {t : Ticket} {c : Call}, x.calls[t]? = some c → c.stage = .waiting →
    some t ∈ x.reader.pending.slots ∨ t ∈ told.map Outcome.ticket
  /-- a request that still sends has its slot in the queue, or will find its outcome -/
  queued : ∀ {t : Ticket} {c : Call}, x.calls[t]? = some c → c.waits = true →
    c.stage.hasQueued = true →
    some t ∈ x.reader.pending.slots ∨ t ∈ x.reader.outcomes.map Outcome.ticket

namespace Accounted

variable {told : List Outcome}

/-- Only the calls, the reader and the endings matter. -/
theorem of_eq {y : Exchange} (h : x.Accounted told) (calls : y.calls = x.calls)
    (reader : y.reader = x.reader) (endings : y.endings = x.endings) : y.Accounted told where
  once := by rw [endings]; exact h.once
  closed := by rw [endings, calls]; exact h.closed
  ended := by rw [endings, calls]; exact h.ended
  waiting := by rw [reader, calls]; exact h.waiting
  queued := by rw [reader, calls]; exact h.queued

/-- A call that is not over goes on. -/
theorem advance {t : Ticket} {c : Call} {stage : Stage} (h : x.Accounted told)
    (hc : x.calls[t]? = some c) (before : c.stage ≠ .closed) (after : stage ≠ .closed)
    (waits : stage = .waiting → some t ∈ x.reader.pending.slots ∨ t ∈ told.map Outcome.ticket)
    (queues : c.waits = true → stage.hasQueued = true →
      some t ∈ x.reader.pending.slots ∨ t ∈ x.reader.outcomes.map Outcome.ticket) :
    (x.advance t stage).Accounted told where
  once := h.once
  closed o ho := by
    obtain ⟨d, hd, hover⟩ := h.closed o ho
    have hne : t ≠ o.ticket := by
      rintro rfl
      cases hc.symm.trans hd
      exact before hover
    exact ⟨d, by rw [calls_advance, if_neg hne, hd], hover⟩
  ended hd hwaits hover := by
    rcases advanced hd with ⟨rfl, c₀, hc₀, rfl⟩ | ⟨-, hd⟩
    · exact absurd hover after
    · exact h.ended hd hwaits hover
  waiting hd hstage := by
    rcases advanced hd with ⟨rfl, c₀, hc₀, rfl⟩ | ⟨-, hd⟩
    · exact waits hstage
    · exact h.waiting hd hstage
  queued hd hwaits hstage := by
    rcases advanced hd with ⟨rfl, c₀, hc₀, rfl⟩ | ⟨-, hd⟩
    · cases hc.symm.trans hc₀
      exact queues hwaits hstage
    · exact h.queued hd hwaits hstage

/-- A call that is not over ends. -/
theorem conclude {o : Outcome} {c : Call} (h : x.Accounted told)
    (hc : x.calls[o.ticket]? = some c) (before : c.stage ≠ .closed) :
    (x.conclude o).Accounted told where
  once := by
    have hnew : o.ticket ∉ x.endings.map Outcome.ticket := by
      rintro hmem
      obtain ⟨o', ho', heq⟩ := List.mem_map.1 hmem
      obtain ⟨d, hd, hover⟩ := h.closed o' ho'
      rw [heq] at hd
      cases hc.symm.trans hd
      exact before hover
    simp only [Exchange.conclude, List.map_append, List.map_cons, List.map_nil]
    exact List.nodup_append.2 ⟨h.once, by simp, by
      rintro a ha b hb rfl
      exact hnew (List.mem_singleton.1 hb ▸ ha)⟩
  closed o' ho' := by
    rcases List.mem_append.1 ho' with ho' | ho'
    · obtain ⟨d, hd, hover⟩ := h.closed o' ho'
      refine ⟨{ d with stage := .closed }, ?_, rfl⟩
      change (x.advance o.ticket .closed).calls[o'.ticket]? = _
      rw [calls_advance, hd]
      split
      · rfl
      · rw [← hover]
    · cases List.mem_singleton.1 ho'
      refine ⟨{ c with stage := .closed }, ?_, rfl⟩
      change (x.advance o.ticket .closed).calls[o.ticket]? = _
      rw [calls_advance, if_pos rfl, hc, Option.map_some]
  ended hd hwaits hover := by
    simp only [Exchange.conclude, List.map_append, List.mem_append]
    rcases advanced hd with ⟨rfl, c₀, hc₀, rfl⟩ | ⟨-, hd⟩
    · exact .inr (List.mem_singleton.2 rfl)
    · exact .inl (h.ended hd hwaits hover)
  waiting hd hstage := by
    rcases advanced hd with ⟨rfl, c₀, hc₀, rfl⟩ | ⟨-, hd⟩
    · cases hstage
    · exact h.waiting hd hstage
  queued hd hwaits hstage := by
    rcases advanced hd with ⟨rfl, c₀, hc₀, rfl⟩ | ⟨-, hd⟩
    · cases hstage
    · exact h.queued hd hwaits hstage

/-- One outcome is handed out. -/
theorem take {o : Outcome} (h : x.Accounted (o :: told)) : (x.take o).Accounted told := by
  -- a call that waits only for this outcome takes it, so nobody else is to be told
  have drops : x.stage? o.ticket ≠ some .waiting → x.Accounted told := fun hstage =>
    { h with
      waiting := fun {t c} hc hwaiting => by
        rcases h.waiting hc hwaiting with hslot | htold
        · exact .inl hslot
        · rcases List.mem_cons.1 htold with rfl | htold
          · exact absurd (by rw [stage?, hc, Option.map_some, hwaiting]) hstage
          · exact .inr htold }
  unfold Exchange.take
  split
  · rename_i hstage
    obtain ⟨c, hc, hwaiting⟩ := Option.map_eq_some_iff.1 hstage
    have hconcluded := h.conclude hc (by rw [hwaiting]; nofun)
    refine { hconcluded with waiting := fun {t d} hd hstage => ?_ }
    rcases advanced hd with ⟨rfl, c₀, hc₀, rfl⟩ | ⟨hne, hd'⟩
    · cases hstage
    · rcases hconcluded.waiting hd hstage with hslot | htold
      · exact .inl hslot
      · exact .inr ((List.mem_cons.1 htold).resolve_left hne)
  · rename_i hstage
    exact drops hstage

/-- All outcomes are handed out. -/
theorem handed (h : x.Accounted told) : (told.foldl Exchange.take x).Accounted [] := by
  induction told generalizing x with
  | nil => exact h
  | cons o told ih => exact ih h.take

/-- The reader goes on, and loses no slot. -/
theorem read {r : Reader} (h : x.Accounted [])
    (outcomes : r.outcomes = x.reader.outcomes ++ told)
    (keeps : ∀ t, some t ∈ x.reader.pending.slots →
      some t ∈ r.pending.slots ∨ t ∈ told.map Outcome.ticket) :
    { x with reader := r }.Accounted told where
  once := h.once
  closed := h.closed
  ended := h.ended
  waiting hc hwaiting := keeps _ ((h.waiting hc hwaiting).resolve_right List.not_mem_nil)
  queued hc hwaits hqueued := by
    change _ ∨ _ ∈ r.outcomes.map Outcome.ticket
    rw [outcomes, List.map_append, List.mem_append]
    rcases h.queued hc hwaits hqueued with hslot | hfound
    · exact (keeps _ hslot).imp_right .inr
    · exact .inr (.inl hfound)

/-- The reader takes a signal. -/
theorem signal (h : x.Accounted []) (s : Signal) : (x.signal s).Accounted [] := by
  obtain ⟨told, houtcomes, hkeeps⟩ := x.reader.step_keeps s
  have htold : (x.reader.step s).outcomes.drop x.reader.outcomes.length = told := by
    rw [houtcomes, List.drop_left]
  unfold Exchange.signal
  rw [htold]
  exact (h.read houtcomes hkeeps).handed

end Accounted

/-! ## Kept by every act -/

theorem accounted_opened (table : Table) (link : Nat) : (opened table link).Accounted [] where
  once := List.nodup_nil
  closed _ h := by cases h
  ended h := by cases h
  waiting h := by cases h
  queued h := by cases h

/-- A call that has not queued its slot has no account yet, and neither has a failed one. -/
theorem Accounted.onwards {t : Ticket} {c : Call} {stage : Stage} (h : x.Accounted [])
    (hc : x.calls[t]? = some c) (before : c.stage ≠ .closed) (sending : stage.isSending = true)
    (queued : stage.hasQueued = true → c.stage.hasQueued = true) :
    (x.advance t stage).Accounted [] :=
  h.advance hc before (by rintro rfl; cases sending) (by rintro rfl; cases sending)
    fun hwaits hqueued => h.queued hc hwaits (queued hqueued)

theorem Accounted.sent {t : Ticket} {c : Call} (h : x.Accounted []) (hc : x.calls[t]? = some c)
    (hstage : c.stage = .noted none) : (x.sent t c.waits).Accounted [] := by
  have before : c.stage ≠ .closed := by rw [hstage]; nofun
  unfold Exchange.sent
  split
  · rename_i hwaits
    split
    · rename_i o hfound
      have hticket : o.ticket = t := by simpa using List.find?_some hfound
      subst hticket
      exact h.conclude hc before
    · rename_i hnone
      refine h.advance hc before nofun (fun _ => ?_) nofun
      refine .inl ((h.queued hc hwaits (by rw [hstage]; rfl)).resolve_right fun hmem => ?_)
      obtain ⟨o, ho, rfl⟩ := List.mem_map.1 hmem
      exact absurd (List.find?_eq_none.1 hnone o ho) (by simp)
  · rename_i hwaits
    refine ⟨h.once, fun o ho => ?_, fun hd hdwaits hover => ?_, fun hd hdwaiting => ?_,
      fun hd hdwaits hqueued => ?_⟩
    · obtain ⟨d, hd, hover⟩ := h.closed o ho
      refine ⟨{ d with stage := .closed }, ?_, rfl⟩
      rw [calls_advance, hd]
      split
      · rfl
      · rw [← hover]
    all_goals rcases advanced hd with ⟨rfl, c₀, hc₀, rfl⟩ | ⟨-, hd⟩
    · cases hc.symm.trans hc₀
      exact absurd hdwaits hwaits
    · exact h.ended hd hdwaits hover
    · cases hdwaiting
    · exact h.waiting hd hdwaiting
    · cases hqueued
    · exact h.queued hd hdwaits hqueued

/-- What is next for a call keeps the account. -/
theorem Accounted.proceed {t : Ticket} {c : Call} {y : Exchange} (h : x.Accounted [])
    (hc : x.calls[t]? = some c) (hy : x.proceed t c = some y) : y.Accounted [] := by
  obtain ⟨text, waits, stage⟩ := c
  cases stage with
  | started =>
      simp only [Exchange.proceed] at hy
      split at hy <;> cases hy
      · exact h.onwards hc nofun rfl nofun
      · exact h.conclude hc nofun
  | found =>
      simp only [Exchange.proceed] at hy
      split at hy <;> cases hy
      have hlocked : (x.advance t .locked).Accounted [] := h.onwards hc nofun rfl nofun
      exact hlocked.of_eq rfl rfl rfl
  | locked =>
      cases hy
      have hpushed := h.read (r := x.reader.step (.sent (slotFor t waits)))
        (List.append_nil _).symm fun _ hslot => .inl (List.mem_append_left _ hslot)
      exact hpushed.advance hc nofun nofun nofun fun hwaits _ => .inl <| by
        cases (hwaits : waits = true)
        exact List.mem_append_right _ List.mem_cons_self
  | queued =>
      cases hy
      have htried : (x.advance t (.tried none)).Accounted [] := h.onwards hc nofun rfl fun _ => rfl
      exact htried.of_eq rfl rfl rfl
  | tried failure =>
      cases hy
      have hunlocked : (x.advance t (.unlocked failure)).Accounted [] :=
        h.onwards hc nofun rfl (by cases failure <;> exact fun hqueued => hqueued)
      exact hunlocked.of_eq rfl rfl rfl
  | unlocked failure =>
      have hnoted : (x.advance t (.noted failure)).Accounted [] :=
        h.onwards hc nofun rfl (by cases failure <;> exact fun hqueued => hqueued)
      cases failure <;> cases hy <;> exact hnoted.of_eq rfl rfl rfl
  | noted failure =>
      cases failure <;> cases hy
      · exact h.sent hc rfl
      · exact h.conclude hc nofun
  | waiting => cases hy
  | closed => cases hy

/-- Every act keeps the account. -/
theorem Accounted.act {a : Act} {y : Exchange} (h : x.Accounted []) (hy : x.act a = some y) :
    y.Accounted [] := by
  cases a with
  | call text waits =>
      cases hy
      have old : ∀ {t : Ticket} {c : Call},
          (x.calls ++ [⟨text, waits, .started⟩])[t]? = some c → c.stage ≠ .started →
          x.calls[t]? = some c := by
        intro t c hc hstage
        rcases Nat.lt_or_ge t x.calls.length with hlt | hge
        · rwa [List.getElem?_append_left hlt] at hc
        · rw [List.getElem?_append_right hge, List.getElem?_singleton] at hc
          split at hc <;> cases hc
          exact absurd rfl hstage
      refine ⟨h.once, fun o ho => ?_, fun hc hwaits hover => ?_, fun hc hwaiting => ?_,
        fun hc hwaits hqueued => ?_⟩
      · obtain ⟨d, hd, hover⟩ := h.closed o ho
        exact ⟨d, List.getElem?_append_left (List.getElem?_eq_some_iff.1 hd).1 ▸ hd, hover⟩
      · exact h.ended (old hc (by rw [hover]; nofun)) hwaits hover
      · exact h.waiting (old hc (by rw [hwaiting]; nofun)) hwaiting
      · exact h.queued (old hc (by rintro hstarted; rw [hstarted] at hqueued; cases hqueued))
          hwaits hqueued
  | proceed t =>
      obtain ⟨c, hc, hy⟩ := Option.bind_eq_some_iff.1 hy
      exact h.proceed hc hy
  | fail t fault =>
      simp only [Exchange.act] at hy
      split at hy <;> cases hy
      rename_i hstage
      obtain ⟨c, hc, hqueued⟩ := Option.map_eq_some_iff.1 hstage
      exact h.onwards hc (by rw [hqueued]; nofun) rfl nofun
  | remove | babble =>
      cases hy
      exact h.of_eq rfl rfl rfl
  | reply bytes =>
      simp only [Exchange.act] at hy
      split at hy <;> cases hy
      exact h.of_eq rfl rfl rfl
  | read =>
      simp only [Exchange.act] at hy
      split at hy
      · cases hy
      · obtain ⟨bytes, -, rfl⟩ := Option.map_eq_some_iff.1 hy
        refine Accounted.signal ?_ _
        exact h.of_eq rfl rfl rfl
  | lose | close =>
      simp only [Exchange.act] at hy
      split at hy <;> cases hy
      exact h.signal _

/-- A queue without owner is dropped, and the account is kept. -/
theorem Accounted.release (h : x.Accounted []) : x.release.Accounted [] := by
  unfold Exchange.release
  split
  · exact h
  · rename_i hfree
    have hgone : ∀ {t : Ticket} {c : Call}, x.calls[t]? = some c → c.stage.hasRemote = false := by
      intro t c hc
      simp only [isOwned, Bool.or_eq_true, not_or, List.any_eq_true, not_exists, not_and] at hfree
      simpa using hfree.2 c (List.mem_of_getElem? hc)
    refine handed ⟨h.once, h.closed, h.ended, fun hc hwaiting => ?_, fun {t c} hc _ hqueued => ?_⟩
    · exact .inr (Wire.Pending.tickets_failures
        ((h.waiting hc hwaiting).resolve_right List.not_mem_nil))
    · exact absurd (Stage.hasRemote_of_hasQueued hqueued) (by rw [hgone hc]; nofun)

/-! ## No request is left waiting -/

theorem reader_handed (x : Exchange) (told : List Outcome) :
    (told.foldl take x).reader = x.reader := by
  induction told generalizing x with
  | nil => rfl
  | cons o told ih =>
      rw [List.foldl_cons, ih]
      unfold take
      split <;> rfl

/-- After every act the queue has an owner or is empty. -/
theorem owned_or_empty {x y : Exchange} {a : Act} (h : x.step a = some y) :
    y.isOwned = true ∨ y.reader.pending.slots = [] := by
  obtain ⟨x', -, rfl⟩ := Option.map_eq_some_iff.1 h
  unfold release
  split
  · exact .inl ‹_›
  · rw [reader_handed]
    exact .inr rfl

/-- Where the calls stand after a run, and who owns the queue. -/
theorem run_accounted {table : Table} {link : Nat} {acts : List Act}
    (h : (opened table link).run acts = some x) :
    x.Accounted [] ∧ (x.isOwned = true ∨ x.reader.pending.slots = []) := by
  refine run_induction
    (P := fun y => y.Accounted [] ∧ (y.isOwned = true ∨ y.reader.pending.slots = []))
    (Q := fun _ => True) ?_ (fun _ _ => trivial) ⟨accounted_opened table link, .inl ?_⟩ h
  · rintro y z a - ⟨hy, -⟩ hstep
    obtain ⟨y', hact, hz⟩ := Option.map_eq_some_iff.1 hstep
    exact ⟨hz ▸ (hy.act hact).release, owned_or_empty hstep⟩
  · simp [isOwned, opened, Reader.start]

/-- An outcome stands alone among those of its ticket when no ticket comes twice. -/
theorem filter_ticket_of_nodup {os : List Outcome} {o : Outcome}
    (once : (os.map Outcome.ticket).Nodup) (ho : o ∈ os) :
    os.filter (·.ticket == o.ticket) = [o] := by
  induction os with
  | nil => cases ho
  | cons p os ih =>
      obtain ⟨hp, once⟩ := List.nodup_cons.1 once
      rcases List.mem_cons.1 ho with rfl | ho
      · have hothers : os.filter (·.ticket == o.ticket) = [] := by
          simp only [List.filter_eq_nil_iff, beq_iff_eq]
          exact fun q hq heq => hp (heq ▸ List.mem_map_of_mem hq)
        rw [List.filter_cons_of_pos (by simp), hothers]
      · have hne : p.ticket ≠ o.ticket := fun heq => hp (heq ▸ List.mem_map_of_mem ho)
        rw [List.filter_cons_of_neg (by simpa using hne), ih once ho]

/-- When the reader has ended, the connection is removed and no call sends any more, every request
that was ever made has ended, once. -/
theorem requests_end {table : Table} {link : Nat} {acts : List Act}
    (h : (opened table link).run acts = some x) (ended : x.reader.finished = true)
    (removed : x.isListed = false) (quiet : ∀ c ∈ x.calls, c.stage.isSending = false)
    {t : Ticket} {c : Call} (hc : x.calls[t]? = some c) (hwaits : c.waits = true) :
    c.stage = .closed ∧ ∃ result, x.endings.filter (·.ticket == t) = [⟨t, result⟩] := by
  obtain ⟨account, owned⟩ := run_accounted h
  have hfree : x.isOwned = false := by
    simp only [isOwned, removed, ended, Bool.not_true, Bool.or_false, Bool.false_or,
      List.any_eq_false]
    exact fun d hd => by rw [Stage.hasRemote_of_quiet (quiet d hd)]; nofun
  -- nobody owns the queue, so it is empty and nobody waits in it
  have hempty := owned.resolve_left (by rw [hfree]; nofun)
  have hover : c.stage = .closed := by
    refine Stage.over_of_quiet (quiet c (List.mem_of_getElem? hc)) fun hwaiting => ?_
    have hslot := (account.waiting hc hwaiting).resolve_right List.not_mem_nil
    rw [hempty] at hslot
    cases hslot
  obtain ⟨o, ho, hticket⟩ := List.mem_map.1 (account.ended hc hwaits hover)
  refine ⟨hover, o.result, ?_⟩
  rw [← hticket]
  exact filter_ticket_of_nodup account.once ho

/-- Four requests: the first is answered, the second sends its text when the reader has already
failed everybody, the third cannot write, and the fourth comes when the connection is removed. -/
def crossing : List Act :=
  [Act.call "1" true, .call "2" true, .call "3" true] ++ List.replicate 4 (Act.proceed 0) ++
    [Act.reply [49], .proceed 0, .read] ++ List.replicate 2 (Act.proceed 0) ++
    [Act.proceed 1, .lose] ++ [Act.proceed 1, .proceed 2] ++ List.replicate 5 (Act.proceed 1) ++
    [Act.proceed 2, .proceed 2, .fail 2 (.transport "broken pipe")] ++
    List.replicate 3 (Act.proceed 2) ++ [Act.call "4" true, .proceed 3]

theorem requests_end_crossing :
    ∃ x, (opened (.new 10) 0).run crossing = some x ∧ x.calls.length = 4 ∧
      ∀ t c, x.calls[t]? = some c → c.waits = true →
        c.stage = .closed ∧ ∃ result, x.endings.filter (·.ticket == t) = [⟨t, result⟩] := by
  obtain ⟨x, hrun, hended, hremoved, hquiet, hcalls⟩ :
      ∃ x, (opened (.new 10) 0).run crossing = some x ∧ x.reader.finished = true ∧
        x.isListed = false ∧ (∀ c ∈ x.calls, c.stage.isSending = false) ∧ x.calls.length = 4 :=
    ⟨_, rfl, rfl, rfl, by decide, rfl⟩
  exact ⟨x, hrun, hcalls, fun t c hc hwaits =>
    requests_end hrun hended hremoved hquiet hc hwaits⟩

end Exchange

end Peer

end PeerScript
