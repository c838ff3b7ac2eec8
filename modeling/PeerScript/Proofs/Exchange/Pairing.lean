import Mathlib.Data.List.Nodup
import PeerScript.Proofs.Exchange.Endings

/-!
# Every response reaches its request

The slots, the frames and the replies are three queues that are never tied together; only their
order says which reply belongs to which request.  The orders agree because a slot is queued and its
text is written while the same call holds the writer.

`Paired` says how far each queue is ahead of the next one: the queue of slots holds the slots of the
frames whose replies were not read yet, and behind them the slot of the call that holds the writer,
if it has queued its slot and not written yet.  Every act keeps this unless a write fails or the
remote sends what is no reply, so `responses_paired` holds after every run without such acts.
-/

set_option autoImplicit false

namespace PeerScript

/-- Whether a request ended with a response. -/
def Wire.Outcome.isResponse (o : Wire.Outcome) : Bool := o.result.toBool

theorem Wire.Pending.respond_slots (p : Wire.Pending) (text : String) :
    (p.respond text).1.slots = p.slots.tail := by
  obtain ⟨slots⟩ := p
  match slots with
  | [] | none :: _ | some _ :: _ => rfl

theorem Wire.Pending.respond_outcomes {p : Wire.Pending} {slot : Wire.Slot} (text : String)
    (h : p.slots.head? = some slot) :
    (p.respond text).2 = (slot.map fun ticket => ⟨ticket, .ok text⟩).toList := by
  obtain ⟨slots⟩ := p
  match slots, h with
  | none :: _, rfl | some _ :: _, rfl => rfl

theorem Wire.Pending.failures_no_response (p : Wire.Pending) (reason : String) :
    (p.failures reason).filter Wire.Outcome.isResponse = [] := by
  simp only [Wire.Pending.failures, List.filter_eq_nil_iff, List.mem_filterMap,
    Option.map_eq_some_iff]
  rintro o ⟨slot, -, t, -, rfl⟩
  rintro ⟨⟩

namespace Peer

open Network (textOf)
open Wire (Bytes Outcome Reader Signal Slot Ticket)

/-- Whether the text of the call was written, if it could be. -/
def Stage.hasWritten : Stage → Bool
  | tried _ | unlocked _ | noted _ | waiting | closed => true
  | _ => false

/-- The slot of the call that has written a frame. -/
def Frame.slot (f : Frame) : Slot := slotFor f.ticket f.waits

/-- Whether an act is part of an exchange in which all texts are written and the remote sends
replies only. -/
def Act.isRegular : Act → Bool
  | fail _ _ | babble _ => false
  | _ => true

namespace Exchange

variable {x : Exchange}

/-- The outcome that the reply with the given number makes.  It is a reply to the frame with that
number, so it is for the call that has written the frame, if that call waits. -/
def answer? (x : Exchange) (k : Nat) : Option Outcome :=
  x.written[k]?.bind fun f => x.replies[k]?.bind fun bytes =>
    f.slot.map fun ticket => ⟨ticket, .ok (textOf bytes)⟩

/-- How the slots, the frames, the replies and the outcomes belong together. -/
structure Paired (x : Exchange) : Prop where
  /-- only one call holds the writer -/
  holder : ∀ {t : Ticket} {c : Call}, x.calls[t]? = some c → c.stage.holdsWriter = true →
    x.writer = some t
  /-- a frame is the text of a call -/
  author : ∀ f ∈ x.written, ∃ c, x.calls[f.ticket]? = some c ∧ c.text = f.text ∧
    c.waits = f.waits ∧ c.stage.hasWritten = true
  /-- no call writes twice -/
  once : (x.written.map Frame.ticket).Nodup
  replied : x.replies.length ≤ x.written.length
  readable : x.read ≤ x.replies.length
  /-- what was reported -/
  seen : x.reader.seen = (x.replies.take x.read).map textOf
  /-- the responses that were handed out -/
  given : x.reader.outcomes.filter Outcome.isResponse = (List.range x.read).filterMap x.answer?
  /-- the slots while nobody is between queueing and writing -/
  resting : x.reader.finished = false → (∀ c ∈ x.calls, c.stage ≠ .queued) →
    x.reader.pending.slots = (x.written.drop x.read).map Frame.slot
  /-- the slots while a call is between queueing and writing -/
  midway : ∀ {t : Ticket} {c : Call}, x.reader.finished = false → x.calls[t]? = some c →
    c.stage = .queued →
    x.reader.pending.slots = (x.written.drop x.read).map Frame.slot ++ [slotFor t c.waits]
  /-- a call that ends with a response has it from the reader -/
  received : ∀ o ∈ x.endings, o.isResponse = true → o ∈ x.reader.outcomes

namespace Paired

theorem of_eq {y : Exchange} (h : x.Paired) (calls : y.calls = x.calls)
    (writer : y.writer = x.writer) (written : y.written = x.written)
    (replies : y.replies = x.replies) (read : y.read = x.read) (reader : y.reader = x.reader)
    (endings : y.endings = x.endings) : y.Paired := by
  obtain ⟨_, _, _, _, _, _, _, _, _⟩ := x
  obtain ⟨_, _, _, _, _, _, _, _, _⟩ := y
  simp only at calls writer written replies read reader endings
  subst calls writer written replies read reader endings
  exact ⟨h.holder, h.author, h.once, h.replied, h.readable, h.seen, h.given, h.resting, h.midway,
    h.received⟩

/-- A call that does not queue or write goes on. -/
theorem advance {t : Ticket} {c : Call} {stage : Stage} (h : x.Paired) (hc : x.calls[t]? = some c)
    (before : c.stage ≠ .queued) (after : stage ≠ .queued)
    (written : c.stage.hasWritten = true → stage.hasWritten = true)
    (holds : stage.holdsWriter = true → x.writer = some t) : (x.advance t stage).Paired where
  holder hd hholds := by
    rcases advanced hd with ⟨rfl, c₀, hc₀, rfl⟩ | ⟨-, hd⟩
    · exact holds hholds
    · exact h.holder hd hholds
  author f hf := by
    obtain ⟨d, hd, htext, hwaits, hstage⟩ := h.author f hf
    rw [calls_advance]
    split
    · rename_i heq
      subst heq
      cases hc.symm.trans hd
      exact ⟨{ c with stage := stage }, by rw [hd, Option.map_some], htext, hwaits, written hstage⟩
    · exact ⟨d, hd, htext, hwaits, hstage⟩
  once := h.once
  replied := h.replied
  readable := h.readable
  seen := h.seen
  given := h.given
  resting hrunning hnone := by
    refine h.resting hrunning fun d hd hqueued => ?_
    obtain ⟨u, hu⟩ := List.mem_iff_getElem?.1 hd
    by_cases htu : t = u
    · subst htu
      cases hc.symm.trans hu
      exact before hqueued
    · have : (x.advance t stage).calls[u]? = some d := by rw [calls_advance, if_neg htu, hu]
      exact hnone d (List.mem_of_getElem? this) hqueued
  midway hrunning hd hqueued := by
    rcases advanced hd with ⟨rfl, c₀, hc₀, rfl⟩ | ⟨-, hd⟩
    · exact absurd hqueued after
    · exact h.midway hrunning hd hqueued
  received := h.received

/-- A call ends, with a response from the reader or with a fault. -/
theorem conclude {o : Outcome} {c : Call} (h : x.Paired) (hc : x.calls[o.ticket]? = some c)
    (before : c.stage ≠ .queued) (given : o.isResponse = true → o ∈ x.reader.outcomes) :
    (x.conclude o).Paired := by
  have hover : (x.advance o.ticket .closed).Paired :=
    h.advance hc before nofun (fun _ => rfl) nofun
  refine ⟨hover.holder, hover.author, hover.once, hover.replied, hover.readable, hover.seen,
    hover.given, hover.resting, hover.midway, fun p hp hresponse => ?_⟩
  rcases List.mem_append.1 hp with hp | hp
  · exact h.received p hp hresponse
  · cases List.mem_singleton.1 hp
    exact given hresponse

/-- The writer passes to whoever holds it now. -/
theorem pass {writer : Option Ticket} (h : x.Paired)
    (holder : ∀ {t : Ticket} {c : Call}, x.calls[t]? = some c → c.stage.holdsWriter = true →
      writer = some t) : { x with writer := writer }.Paired :=
  ⟨holder, h.author, h.once, h.replied, h.readable, h.seen, h.given, h.resting,
    h.midway, h.received⟩

theorem handed {told : List Outcome} (h : x.Paired)
    (given : ∀ o ∈ told, o.isResponse = true → o ∈ x.reader.outcomes) :
    (told.foldl take x).Paired := by
  induction told generalizing x with
  | nil => exact h
  | cons o told ih =>
      have htaken : (x.take o).Paired := by
        unfold Exchange.take
        split
        · rename_i hstage
          obtain ⟨c, hc, hwaiting⟩ := Option.map_eq_some_iff.1 hstage
          exact h.conclude hc (by rw [hwaiting]; nofun) (given o List.mem_cons_self)
        · exact h
      refine ih htaken fun p hp hresponse => ?_
      have := reader_handed x [o]
      rw [List.foldl_cons, List.foldl_nil] at this
      rw [this]
      exact given p (List.mem_cons_of_mem o hp) hresponse

end Paired

/-! ## Kept by every regular act -/

theorem paired_opened (table : Table) (link : Nat) : (opened table link).Paired where
  holder h := by cases h
  author _ h := by cases h
  once := List.nodup_nil
  replied := Nat.le_refl 0
  readable := Nat.le_refl 0
  seen := rfl
  given := rfl
  resting _ _ := rfl
  midway _ h := by cases h
  received _ h := by cases h

/-- An answer is a response. -/
theorem filter_answer (x : Exchange) (k : Nat) :
    (x.answer? k).toList.filter Outcome.isResponse = (x.answer? k).toList := by
  refine List.filter_eq_self.2 fun o ho => ?_
  simp only [answer?, Option.mem_toList, Option.bind_eq_some_iff, Option.map_eq_some_iff] at ho
  obtain ⟨f, -, bytes, -, ticket, -, rfl⟩ := ho
  rfl

/-- Replies that were read keep their meaning when more is written and replied. -/
theorem answers_eq {y : Exchange} {read : Nat} {frames : List Frame} {replies : List Bytes}
    (hframes : read ≤ x.written.length) (hreplies : read ≤ x.replies.length)
    (written : y.written = x.written ++ frames) (replied : y.replies = x.replies ++ replies) :
    (List.range read).filterMap y.answer? = (List.range read).filterMap x.answer? := by
  refine List.filterMap_congr fun k hk => ?_
  have hlt := List.mem_range.1 hk
  unfold answer?
  rw [written, replied, List.getElem?_append_left (by omega), List.getElem?_append_left (by omega)]

namespace Paired

/-- A call queues its slot while it holds the writer. -/
theorem queue {t : Ticket} {c : Call} (h : x.Paired) (hc : x.calls[t]? = some c)
    (hstage : c.stage = .locked) :
    { x.advance t .queued with reader := x.reader.step (.sent (slotFor t c.waits)) }.Paired := by
  have hwriter := h.holder hc (by rw [hstage]; rfl)
  -- nobody else is between queueing and writing, since nobody else holds the writer
  have hnone : ∀ d ∈ x.calls, d.stage ≠ .queued := by
    intro d hd hqueued
    obtain ⟨u, hu⟩ := List.mem_iff_getElem?.1 hd
    have hu' := h.holder hu (by rw [hqueued]; rfl)
    cases hwriter.symm.trans hu'
    cases hc.symm.trans hu
    rw [hstage] at hqueued
    cases hqueued
  refine ⟨fun hd hholds => ?_, fun f hf => ?_, h.once, h.replied, h.readable, h.seen, h.given,
    fun hrunning hall => ?_, fun hrunning hd hqueued => ?_, h.received⟩
  · rcases advanced hd with ⟨rfl, c₀, hc₀, rfl⟩ | ⟨-, hd⟩
    · exact hwriter
    · exact h.holder hd hholds
  · obtain ⟨d, hd, htext, hwaits, hwritten⟩ := h.author f hf
    refine ⟨d, ?_, htext, hwaits, hwritten⟩
    change (x.advance t .queued).calls[f.ticket]? = some d
    rw [calls_advance, if_neg, hd]
    rintro rfl
    cases hc.symm.trans hd
    rw [hstage] at hwritten
    cases hwritten
  · have hqueued : (x.advance t .queued).calls[t]? = some { c with stage := .queued } := by
      rw [calls_advance, if_pos rfl, hc, Option.map_some]
    exact absurd rfl (hall _ (List.mem_of_getElem? hqueued))
  · rcases advanced hd with ⟨rfl, c₀, hc₀, rfl⟩ | ⟨-, hd⟩
    · cases hc.symm.trans hc₀
      exact congrArg (· ++ [_]) (h.resting hrunning hnone)
    · exact absurd hqueued (hnone _ (List.mem_of_getElem? hd))

/-- A call writes its text behind its slot. -/
theorem write {t : Ticket} {c : Call} (h : x.Paired) (hc : x.calls[t]? = some c)
    (hstage : c.stage = .queued) :
    { x.advance t (.tried none) with
      written := x.written ++ [Frame.mk t c.text c.waits] }.Paired := by
  have hwriter := h.holder hc (by rw [hstage]; rfl)
  have hothers : ∀ {u : Ticket} {d : Call}, x.calls[u]? = some d → d.stage = .queued → u = t := by
    intro u d hu hqueued
    exact Option.some.inj ((h.holder hu (by rw [hqueued]; rfl)).symm.trans hwriter)
  have hcalls : (x.advance t (.tried none)).calls[t]? = some { c with stage := .tried none } := by
    rw [calls_advance, if_pos rfl, hc, Option.map_some]
  have hread : x.read ≤ x.written.length := Nat.le_trans h.readable h.replied
  refine ⟨fun hd hholds => ?_, fun f hf => ?_, ?_, ?_, h.readable, h.seen, ?_,
    fun hrunning _ => ?_, fun hrunning hd hqueued => ?_, h.received⟩
  · rcases advanced hd with ⟨rfl, c₀, hc₀, rfl⟩ | ⟨-, hd⟩
    · exact hwriter
    · exact h.holder hd hholds
  · rcases List.mem_append.1 hf with hf | hf
    · obtain ⟨d, hd, htext, hwaits, hwritten⟩ := h.author f hf
      refine ⟨d, ?_, htext, hwaits, hwritten⟩
      change (x.advance t (.tried none)).calls[f.ticket]? = some d
      rw [calls_advance, if_neg, hd]
      rintro rfl
      cases hc.symm.trans hd
      rw [hstage] at hwritten
      cases hwritten
    · cases List.mem_singleton.1 hf
      exact ⟨_, hcalls, rfl, rfl, rfl⟩
  · rw [List.map_append]
    refine List.nodup_append.2 ⟨h.once, by simp, ?_⟩
    rintro a ha b hb rfl
    obtain ⟨f, hf, rfl⟩ := List.mem_map.1 ha
    obtain ⟨d, hd, -, -, hwritten⟩ := h.author f hf
    have heq : f.ticket = t := by simpa using hb
    rw [heq, hc] at hd
    cases hd
    rw [hstage] at hwritten
    cases hwritten
  · rw [List.length_append]
    exact Nat.le_add_right_of_le h.replied
  · refine h.given.trans (Eq.symm ?_)
    exact answers_eq hread h.readable rfl (List.append_nil _).symm
  · change _ = ((x.written ++ _).drop x.read).map Frame.slot
    rw [List.drop_append_of_le_length hread, List.map_append]
    exact h.midway hrunning hc hstage
  · rcases advanced hd with ⟨rfl, c₀, hc₀, rfl⟩ | ⟨hne, hd⟩
    · cases hqueued
    · exact absurd (hothers hd hqueued) hne

/-- The reader hands the next reply to the oldest slot. -/
theorem deliver {bytes : Bytes} (h : x.Paired) (hrunning : x.reader.finished = false)
    (hbytes : x.replies[x.read]? = some bytes) (table : Table) :
    { x with
      table := table
      read := x.read + 1
      reader := x.reader.deliver bytes }.Paired := by
  have hlt : x.read < x.replies.length := (List.getElem?_eq_some_iff.1 hbytes).1
  have hframe : x.read < x.written.length := Nat.lt_of_lt_of_le hlt h.replied
  have hdrop : x.written.drop x.read = x.written[x.read] :: x.written.drop (x.read + 1) :=
    List.drop_eq_getElem_cons hframe
  -- the oldest slot is the one of the frame to which this is the reply
  have holdest : x.reader.pending.slots.head? = some x.written[x.read].slot := by
    by_cases hnone : ∀ c ∈ x.calls, c.stage ≠ .queued
    · rw [h.resting hrunning hnone, hdrop, List.map_cons, List.head?_cons]
    · simp only [not_forall, not_not] at hnone
      obtain ⟨c, hc, hqueued⟩ := hnone
      obtain ⟨t, ht⟩ := List.mem_iff_getElem?.1 hc
      rw [h.midway hrunning ht hqueued, hdrop, List.map_cons, List.cons_append, List.head?_cons]
  have hoption : x.written[x.read]? = some x.written[x.read] := List.getElem?_eq_getElem hframe
  have hanswer : (x.reader.pending.respond (textOf bytes)).2 = (x.answer? x.read).toList := by
    rw [Wire.Pending.respond_outcomes _ holdest, answer?, hoption, Option.bind_some, hbytes,
      Option.bind_some]
  have hslots := x.reader.pending.respond_slots (textOf bytes)
  refine ⟨h.holder, h.author, h.once, h.replied, hlt, ?_, ?_, fun _ hnone => ?_,
    fun _ hd hqueued => ?_, fun o ho hresponse => List.mem_append_left _
      (h.received o ho hresponse)⟩
  · change x.reader.seen ++ [textOf bytes] = (x.replies.take (x.read + 1)).map textOf
    rw [List.take_add_one, hbytes, List.map_append, ← h.seen]
    rfl
  · change (x.reader.outcomes ++ (x.reader.pending.respond (textOf bytes)).2).filter _ =
      (List.range (x.read + 1)).filterMap x.answer?
    rw [List.filter_append, h.given, List.range_succ, List.filterMap_append, hanswer,
      filter_answer]
    cases hread : x.answer? x.read <;> simp [hread]
  · change (x.reader.pending.respond (textOf bytes)).1.slots = _
    rw [hslots, h.resting hrunning hnone, hdrop]
    rfl
  · change (x.reader.pending.respond (textOf bytes)).1.slots = _
    rw [hslots, h.midway hrunning hd hqueued, hdrop]
    rfl

/-- The reader ends, and no slot matters any more. -/
theorem finish {reason : String} (h : x.Paired) :
    { x with reader := x.reader.finish reason }.Paired := by
  refine ⟨h.holder, h.author, h.once, h.replied, h.readable, h.seen, ?_, nofun, nofun,
    fun o ho hresponse => List.mem_append_left _ (h.received o ho hresponse)⟩
  change (x.reader.outcomes ++ _).filter Outcome.isResponse = _
  rw [List.filter_append, x.reader.pending.failures_no_response, List.append_nil]
  exact h.given

/-- What is next for a call keeps the pairing. -/
theorem proceed {t : Ticket} {c : Call} {y : Exchange} (h : x.Paired)
    (hc : x.calls[t]? = some c) (hy : x.proceed t c = some y) : y.Paired := by
  obtain ⟨text, waits, stage⟩ := c
  cases stage with
  | started =>
      simp only [Exchange.proceed] at hy
      split at hy <;> cases hy
      · refine h.advance hc ?_ ?_ ?_ ?_ <;> rintro ⟨⟩
      · refine h.conclude hc ?_ ?_ <;> rintro ⟨⟩
  | found =>
      simp only [Exchange.proceed] at hy
      split at hy
      · rename_i hfree
        cases hy
        have hnone : x.writer = none := Option.isNone_iff_eq_none.1 hfree
        have hpassed : { x with writer := some t }.Paired := h.pass fun hd hholds => by
          cases hnone.symm.trans (h.holder hd hholds)
        exact hpassed.advance hc (by rintro ⟨⟩) (by rintro ⟨⟩) (by rintro ⟨⟩) fun _ => rfl
      · cases hy
  | locked =>
      cases hy
      exact h.queue hc rfl
  | queued =>
      cases hy
      exact h.write hc rfl
  | tried failure =>
      cases hy
      have hunlocked : (x.advance t (.unlocked failure)).Paired :=
        h.advance hc (by rintro ⟨⟩) (by rintro ⟨⟩) (fun _ => rfl) (by rintro ⟨⟩)
      refine hunlocked.pass fun hd hholds => ?_
      rcases advanced hd with ⟨rfl, c₀, -, rfl⟩ | ⟨hne, hd⟩
      · cases hholds
      · exact absurd (Option.some.inj ((h.holder hd hholds).symm.trans (h.holder hc rfl))) hne
  | unlocked failure =>
      have hnoted : (x.advance t (.noted failure)).Paired :=
        h.advance hc (by rintro ⟨⟩) (by rintro ⟨⟩) (fun _ => rfl) (by rintro ⟨⟩)
      cases failure <;> cases hy <;> exact hnoted.of_eq rfl rfl rfl rfl rfl rfl rfl
  | noted failure =>
      cases failure <;> cases hy
      · unfold Exchange.sent
        split
        · split
          · rename_i o hfound
            have hticket : o.ticket = t := by simpa using List.find?_some hfound
            subst hticket
            exact h.conclude hc (by rintro ⟨⟩) fun _ => List.mem_of_find?_eq_some hfound
          · exact h.advance hc (by rintro ⟨⟩) (by rintro ⟨⟩) (fun _ => rfl) (by rintro ⟨⟩)
        · exact h.advance hc (by rintro ⟨⟩) (by rintro ⟨⟩) (fun _ => rfl) (by rintro ⟨⟩)
      · refine h.conclude hc ?_ ?_ <;> rintro ⟨⟩
  | waiting => cases hy
  | closed => cases hy

/-- What the reader makes of a signal is handed out. -/
theorem signal {s : Signal} (h : { x with reader := x.reader.step s }.Paired) :
    (x.signal s).Paired :=
  h.handed fun _ ho _ => List.mem_of_mem_drop ho

/-- One more call begins. -/
theorem call (h : x.Paired) (text : String) (waits : Bool) :
    { x with calls := x.calls ++ [Call.mk text waits .started] }.Paired := by
  have old : ∀ {t : Ticket} {c : Call}, (x.calls ++ [Call.mk text waits .started])[t]? = some c →
      x.calls[t]? = some c ∨ c.stage = .started := by
    intro t c hc
    rcases Nat.lt_or_ge t x.calls.length with hlt | hge
    · exact .inl (by rwa [List.getElem?_append_left hlt] at hc)
    · rw [List.getElem?_append_right hge, List.getElem?_singleton] at hc
      split at hc <;> cases hc
      exact .inr rfl
  refine ⟨fun hd hholds => ?_, fun f hf => ?_, h.once, h.replied, h.readable, h.seen, h.given,
    fun hrunning hnone => ?_, fun hrunning hd hqueued => ?_, h.received⟩
  · rcases old hd with hd | hstarted
    · exact h.holder hd hholds
    · rw [hstarted] at hholds
      cases hholds
  · obtain ⟨d, hd, hwritten⟩ := h.author f hf
    exact ⟨d, List.getElem?_append_left (List.getElem?_eq_some_iff.1 hd).1 ▸ hd, hwritten⟩
  · exact h.resting hrunning fun d hd => hnone d (List.mem_append_left _ hd)
  · rcases old hd with hd | hstarted
    · exact h.midway hrunning hd hqueued
    · rw [hstarted] at hqueued
      cases hqueued

/-- The remote replies to the oldest frame without reply. -/
theorem reply {bytes : Bytes} (h : x.Paired) (hlt : x.replies.length < x.written.length) :
    { x with replies := x.replies ++ [bytes] }.Paired := by
  refine ⟨h.holder, h.author, h.once, ?_, ?_, ?_, ?_, h.resting, h.midway, h.received⟩
  · rw [List.length_append]
    exact hlt
  · rw [List.length_append]
    exact Nat.le_add_right_of_le h.readable
  · rw [List.take_append_of_le_length h.readable]
    exact h.seen
  · refine h.given.trans (Eq.symm ?_)
    exact answers_eq (Nat.le_trans h.readable h.replied) h.readable (List.append_nil _).symm rfl

/-- Every regular act keeps the pairing. -/
theorem act {a : Act} {y : Exchange} (h : x.Paired) (regular : a.isRegular = true)
    (hy : x.act a = some y) : y.Paired := by
  cases a with
  | fail t fault | babble bytes => cases regular
  | call text waits =>
      cases hy
      exact h.call text waits
  | proceed t =>
      obtain ⟨c, hc, hy⟩ := Option.bind_eq_some_iff.1 hy
      exact h.proceed hc hy
  | remove =>
      cases hy
      exact h.of_eq rfl rfl rfl rfl rfl rfl rfl
  | reply bytes =>
      simp only [Exchange.act] at hy
      split at hy <;> cases hy
      exact h.reply ‹_›
  | read =>
      simp only [Exchange.act] at hy
      split at hy
      · cases hy
      · rename_i hrunning
        obtain ⟨bytes, hbytes, rfl⟩ := Option.map_eq_some_iff.1 hy
        refine signal ?_
        simp only [Reader.step, if_neg hrunning]
        exact h.deliver (by simpa using hrunning) hbytes _
  | lose =>
      simp only [Exchange.act] at hy
      split at hy <;> cases hy
      refine signal ?_
      simp only [Reader.step, if_neg ‹_›]
      exact h.finish
  | close =>
      simp only [Exchange.act] at hy
      split at hy <;> cases hy
      rename_i hrunning
      refine signal ?_
      rw [Bool.or_eq_true, not_or] at hrunning
      simp only [Reader.step, Bool.not_true, Bool.or_false, if_neg hrunning.1]
      exact h.finish

/-- A queue is dropped only when the reader has ended. -/
theorem release (h : x.Paired) : x.release.Paired := by
  unfold Exchange.release
  split
  · exact h
  · rename_i hfree
    have hended : x.reader.finished = true := by
      simp only [isOwned, Bool.or_eq_true, not_or] at hfree
      simpa using hfree.1.2
    refine handed ⟨h.holder, h.author, h.once, h.replied, h.readable, h.seen, h.given,
      fun hrunning => ?_, fun hrunning => ?_, h.received⟩ fun o ho hresponse => ?_
    · cases hended.symm.trans hrunning
    · cases hended.symm.trans hrunning
    · have hmem := List.mem_filter.2 ⟨ho, hresponse⟩
      rw [Wire.Pending.failures_no_response] at hmem
      cases hmem

end Paired

/-! ## The pairing after a run -/

/-- The slots, the frames, the replies and the outcomes belong together after every run of regular
acts. -/
theorem run_paired {table : Table} {link : Nat} {acts : List Act}
    (h : (opened table link).run acts = some x) (regular : ∀ a ∈ acts, a.isRegular = true) :
    x.Paired := by
  refine run_induction (P := Paired) ?_ regular (paired_opened table link) h
  intro y z a hregular hy hstep
  obtain ⟨y', hact, rfl⟩ := Option.map_eq_some_iff.1 hstep
  exact (hy.act hregular hact).release

/-- Values that a function takes somewhere in a range are the values at a list of places. -/
theorem exists_positions {f : Nat → Option Outcome} {bound : Nat} {os : List Outcome}
    (h : ∀ o ∈ os, o ∈ (List.range bound).filterMap f) :
    ∃ positions : List Nat, positions.map f = os.map some ∧ ∀ k ∈ positions, k < bound := by
  induction os with
  | nil => exact ⟨[], rfl, nofun⟩
  | cons o os ih =>
      obtain ⟨positions, hmap, hbound⟩ := ih fun p hp => h p (List.mem_cons_of_mem o hp)
      obtain ⟨k, hk, hvalue⟩ := List.mem_filterMap.1 (h o List.mem_cons_self)
      refine ⟨k :: positions, by rw [List.map_cons, hvalue, hmap, List.map_cons], ?_⟩
      intro i hi
      rcases List.mem_cons.1 hi with rfl | hi
      · exact List.mem_range.1 hk
      · exact hbound i hi

/-- When all texts are written and the remote sends replies only, then in every interleaving the
requests that end with a response end with the replies to their own texts, each reply ends at most
one request, a reply to a call that does not wait ends none, and the replies are reported in the
order of the frames. -/
theorem responses_paired {table : Table} {link : Nat} {acts : List Act}
    (h : (opened table link).run acts = some x) (regular : ∀ a ∈ acts, a.isRegular = true) :
    (∃ positions : List Nat, positions.Nodup ∧
      positions.map x.answer? = (x.endings.filter Outcome.isResponse).map some ∧
      ∀ k ∈ positions, k < x.read ∧ ∃ f c, x.written[k]? = some f ∧
        x.calls[f.ticket]? = some c ∧ c.text = f.text ∧ c.waits = true) ∧
    (x.written.map Frame.ticket).Nodup ∧
    x.reader.outcomes.filter Outcome.isResponse = (List.range x.read).filterMap x.answer? ∧
    x.reader.seen = (x.replies.take x.read).map textOf ∧
    x.read ≤ x.replies.length ∧ x.replies.length ≤ x.written.length := by
  have paired := run_paired h regular
  have account := (run_accounted h).1
  refine ⟨?_, paired.once, paired.given, paired.seen, paired.readable, paired.replied⟩
  obtain ⟨positions, hmap, hbound⟩ : ∃ positions : List Nat,
      positions.map x.answer? = (x.endings.filter Outcome.isResponse).map some ∧
        ∀ k ∈ positions, k < x.read := by
    refine exists_positions fun o ho => ?_
    obtain ⟨ho, hresponse⟩ := List.mem_filter.1 ho
    rw [← paired.given]
    exact List.mem_filter.2 ⟨paired.received o ho hresponse, hresponse⟩
  -- an ending comes once, so the reply that made it is used once
  have honce : ((x.endings.filter Outcome.isResponse).map some).Nodup :=
    ((List.Nodup.of_map _ account.once).filter _).map fun _ _ => Option.some.inj
  refine ⟨positions, (hmap ▸ honce).of_map, hmap, fun k hk => ⟨hbound k hk, ?_⟩⟩
  have hvalue : x.answer? k ∈ (x.endings.filter Outcome.isResponse).map some :=
    hmap ▸ List.mem_map_of_mem hk
  obtain ⟨o, -, hanswer⟩ := List.mem_map.1 hvalue
  simp only [answer?, Frame.slot, slotFor, @eq_comm _ (some o), Option.bind_eq_some_iff,
    Option.map_eq_some_iff, Option.ite_none_right_eq_some] at hanswer
  obtain ⟨f, hf, -, -, ticket, ⟨hwaits, -⟩, -⟩ := hanswer
  obtain ⟨c, hc, htext, hsame, -⟩ := paired.author f (List.mem_of_getElem? hf)
  exact ⟨f, c, hf, hc, htext, hsame.trans hwaits⟩

/-- Three calls, the second of which does not wait.  The last one writes before the first response
is read, and its response comes before it has let the writer go. -/
def overlapping : List Act :=
  [Act.call "1" true, .call "2" false, .call "3" true, .proceed 2, .proceed 0, .proceed 1] ++
    List.replicate 4 (Act.proceed 0) ++ [Act.reply [97]] ++ List.replicate 4 (Act.proceed 1) ++
    List.replicate 3 (Act.proceed 2) ++
    [Act.reply [98], .read, .reply [99], .read, .proceed 0, .read] ++
    List.replicate 3 (Act.proceed 2) ++ [Act.proceed 0]

theorem responses_paired_overlapping :
    ∃ x, (opened (.new 10) 0).run overlapping = some x ∧ x.endings.length = 2 ∧
      ∃ positions : List Nat, positions.Nodup ∧
        positions.map x.answer? = (x.endings.filter Outcome.isResponse).map some := by
  obtain ⟨x, hrun, hends⟩ : ∃ x, (opened (.new 10) 0).run overlapping = some x ∧
      x.endings.length = 2 := ⟨_, rfl, rfl⟩
  obtain ⟨⟨positions, honce, hmap, -⟩, -⟩ := responses_paired hrun (by decide)
  exact ⟨x, hrun, hends, positions, honce, hmap⟩

end Exchange

end Peer

end PeerScript
