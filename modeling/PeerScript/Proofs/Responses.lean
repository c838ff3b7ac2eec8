import Mathlib
import PeerScript.Proofs.Exchange.Pairing

/-!
# No slot is lost and none is completed twice

The reader of a connection meets messages and slots in any order: a remote may answer what nobody
asked, a slot may be empty, and the flag that closes the connection may be touched without closing
it.

Every slot that was ever queued is in one of two places, completed or still in the queue, and the
slots stay in order: `Reader.run_goingOn` says that the messages that found a slot, in order, met
the slots that were queued first.  A message that finds none is reported and nothing else, so the
slots behind it are paired as if it had not come.  At the end the slots that are left fail, and
`slots_conserved` puts the two parts of a run together.
-/

set_option autoImplicit false

namespace PeerScript.Wire

open Network (textOf)

/-! ## What a sequence of signals says -/

namespace Signal

/-- Why the requests fail that wait when the signal comes, if it ends the reader. -/
def reason? : Signal → Option String
  | readFailed => some connectionLost
  | closeFlag true | closerDropped => some connectionClosed
  | _ => none

/-- Whether the reader goes on behind the signal. -/
def goesOn (signal : Signal) : Bool := signal.reason?.isNone

/-- The texts of the messages. -/
def heard : List Signal → List String
  | [] => []
  | message bytes :: signals => textOf bytes :: heard signals
  | _ :: signals => heard signals

/-- The slots that are queued. -/
def queued : List Signal → List Slot
  | [] => []
  | sent slot :: signals => slot :: queued signals
  | _ :: signals => queued signals

/-- The texts of the messages that find a slot, where so many slots are free at first. -/
def met : Nat → List Signal → List String
  | _, [] => []
  | free, sent _ :: signals => met (free + 1) signals
  | free + 1, message bytes :: signals => textOf bytes :: met free signals
  | free, _ :: signals => met free signals

end Signal

open Signal (met heard queued)

variable {slots : List Slot} {signals : List Signal} {r : Reader}

namespace Signal

theorem met_sublist :
    ∀ (free : Nat) (signals : List Signal), (met free signals).Sublist (heard signals)
  | _, [] => .slnil
  | free, sent _ :: signals => met_sublist (free + 1) signals
  | 0, message _ :: signals => (met_sublist 0 signals).cons _
  | free + 1, message _ :: signals => (met_sublist free signals).cons_cons _
  | free, readFailed :: signals | free, closeFlag _ :: signals | free,
    closerDropped :: signals => by
      simpa only [met, heard] using met_sublist free signals

theorem length_met_le : ∀ (free : Nat) (signals : List Signal),
    (met free signals).length ≤ free + (queued signals).length
  | _, [] => Nat.zero_le _
  | free, sent _ :: signals => by
      have few := length_met_le (free + 1) signals
      rw [met, queued, List.length_cons]
      omega
  | 0, message _ :: signals => length_met_le 0 signals
  | free + 1, message _ :: signals => by
      have few := length_met_le free signals
      simp only [met, queued, List.length_cons]
      omega
  | free, readFailed :: signals | free, closeFlag _ :: signals | free,
    closerDropped :: signals => by
      simpa only [met, queued] using length_met_le free signals

/-- Every message finds a slot where there are never more messages than slots. -/
theorem met_eq : ∀ (free : Nat) (signals : List Signal),
    (∀ front, front <+: signals → (heard front).length ≤ free + (queued front).length) →
      met free signals = heard signals
  | _, [], _ => rfl
  | free, sent slot :: signals, enough => by
      simp only [met, heard]
      refine met_eq (free + 1) signals fun front isPrefix => ?_
      have more := enough (sent slot :: front) (List.cons_prefix_cons.mpr ⟨rfl, isPrefix⟩)
      simp only [heard, queued, List.length_cons] at more
      omega
  | 0, message bytes :: signals, enough =>
      absurd (enough [message bytes] (List.cons_prefix_cons.mpr ⟨rfl, List.nil_prefix⟩))
        (Nat.not_succ_le_zero 0)
  | free + 1, message bytes :: signals, enough => by
      simp only [met, heard]
      refine congrArg (textOf bytes :: ·) (met_eq free signals fun front isPrefix => ?_)
      have more := enough (message bytes :: front) (List.cons_prefix_cons.mpr ⟨rfl, isPrefix⟩)
      simp only [heard, queued, List.length_cons] at more
      omega
  | free, readFailed :: signals, enough | free, closeFlag _ :: signals, enough
  | free, closerDropped :: signals, enough => by
      simp only [met, heard]
      refine met_eq free signals fun front isPrefix => ?_
      simpa only [heard, queued]
        using enough (_ :: front) (List.cons_prefix_cons.mpr ⟨rfl, isPrefix⟩)

end Signal

/-! ## Outcomes -/

/-- The outcomes of slots that were met by texts. -/
def answers (pairs : List (Slot × String)) : List Outcome :=
  pairs.filterMap fun (slot, text) => slot.map fun ticket => ⟨ticket, .ok text⟩

/-- The requests that wait for slots. -/
def tickets (slots : List Slot) : List Ticket := slots.filterMap id

theorem map_ticket_answers :
    ∀ (slots : List Slot) {texts : List String}, texts.length ≤ slots.length →
    (answers (slots.zip texts)).map Outcome.ticket = tickets (slots.take texts.length)
  | _, [], _ => by rw [List.zip_nil_right]; rfl
  | none :: slots, _ :: texts, few => map_ticket_answers slots (Nat.le_of_succ_le_succ few)
  | some t :: slots, _ :: texts, few =>
      congrArg (t :: ·) (map_ticket_answers slots (Nat.le_of_succ_le_succ few))

theorem map_ticket_failures (slots : List Slot) (reason : String) :
    ((⟨slots⟩ : Pending).failures reason).map Outcome.ticket = tickets slots := by
  unfold Pending.failures tickets
  rw [List.map_filterMap]
  congr 1
  funext slot
  cases slot <;> rfl

theorem answers_cons (pair : Slot × String) (pairs : List (Slot × String)) :
    answers (pair :: pairs) = answers [pair] ++ answers pairs :=
  List.filterMap_append (l := [pair])

/-! ## Runs -/

namespace Reader

variable {seen : List String} {outcomes : List Outcome} {finished : Bool}

theorem deliver_nil (bytes : Bytes) : deliver ⟨⟨[]⟩, seen, outcomes, finished⟩ bytes =
    ⟨⟨[]⟩, seen ++ [textOf bytes], outcomes, finished⟩ :=
  congrArg (Reader.mk _ _ · _) (List.append_nil outcomes)

theorem deliver_cons (slot : Slot) (bytes : Bytes) :
    deliver ⟨⟨slot :: slots⟩, seen, outcomes, finished⟩ bytes =
    ⟨⟨slots⟩, seen ++ [textOf bytes], outcomes ++ answers [(slot, textOf bytes)], finished⟩ := by
  cases slot <;> rfl

theorem run_append (r : Reader) (front back : List Signal) :
    r.run (front ++ back) = (r.run front).run back :=
  List.foldl_append

/-- While no signal ends the reader, the messages that find a slot meet the slots that were queued
first. -/
theorem run_goingOn :
    ∀ {signals : List Signal} {slots : List Slot} {seen : List String} {outcomes : List Outcome},
    (∀ signal ∈ signals, signal.goesOn = true) →
      run ⟨⟨slots⟩, seen, outcomes, false⟩ signals =
        ⟨⟨(slots ++ queued signals).drop (met slots.length signals).length⟩, seen ++ heard signals,
          outcomes ++ answers ((slots ++ queued signals).zip (met slots.length signals)), false⟩
  | [], _, _, _, _ => by simp [run, met, heard, queued, answers]
  | signal :: signals, slots, seen, outcomes, goOn => by
      have goOn' := fun s mem => goOn s (List.mem_cons_of_mem _ mem)
      rw [run, List.foldl_cons, ← run]
      match signal with
      | .sent slot =>
          change run ⟨⟨slots ++ [slot]⟩, seen, outcomes, false⟩ signals = _
          rw [run_goingOn goOn']
          simp [met, heard, queued]
      | .message bytes =>
          change run (deliver ⟨⟨slots⟩, seen, outcomes, false⟩ bytes) signals = _
          match slots with
          | [] =>
              rw [deliver_nil, run_goingOn goOn']
              simp [met, heard, queued]
          | slot :: slots =>
              rw [deliver_cons, run_goingOn goOn', List.append_assoc outcomes, ← answers_cons]
              simp [met, heard, queued]
      | .closeFlag false =>
          change run ⟨⟨slots⟩, seen, outcomes, false⟩ signals = _
          rw [run_goingOn goOn']
          simp only [met, heard, queued]
      | .closeFlag true | .readFailed | .closerDropped => exact nomatch goOn _ List.mem_cons_self

/-- A reader that has ended takes no notice; the queue still grows. -/
theorem run_finished : ∀ {signals : List Signal} {slots : List Slot},
    run ⟨⟨slots⟩, seen, outcomes, true⟩ signals = ⟨⟨slots ++ queued signals⟩, seen, outcomes, true⟩
  | [], slots => congrArg (Reader.mk ⟨·⟩ _ _ _) (List.append_nil slots).symm
  | signal :: signals, slots => by
      rw [run, List.foldl_cons, ← run]
      cases signal with
      | sent slot =>
          change run ⟨⟨slots ++ [slot]⟩, seen, outcomes, true⟩ signals = _
          rw [run_finished, queued, List.append_assoc, List.cons_append, List.nil_append]
      | message _ | readFailed | closerDropped => exact run_finished
      | closeFlag closed => exact run_finished

/-- A signal that ends the reader fails the slots that are left, for its reason. -/
theorem step_stop {signal : Signal} {reason : String} (stops : signal.reason? = some reason) :
    step ⟨⟨slots⟩, seen, outcomes, false⟩ signal =
      ⟨⟨[]⟩, seen, outcomes ++ (⟨slots⟩ : Pending).failures reason, true⟩ := by
  match signal, stops with
  | .readFailed, rfl | .closerDropped, rfl | .closeFlag true, rfl => rfl

/-- The slots that were ever queued and the messages keep their order.  Before the end every message
is reported, the messages that find a slot are handed to the slots that were queued first, one to
each, and the other slots are queued.  At the end each of these fails, so every request that ever
waited has ended, and once. -/
theorem slots_conserved (slots : List Slot) (signals : List Signal) :
    let r := (start ⟨slots⟩).run signals
    let before := signals.takeWhile Signal.goesOn
    let all := slots ++ queued before
    let met := met slots.length before
    r.seen = heard before ∧
      met.Sublist (heard before) ∧ met.length ≤ all.length ∧
      ((∀ front, front <+: before → (heard front).length ≤ slots.length + (queued front).length) →
        met = heard before) ∧
      (∀ front back, signals = front ++ .closeFlag false :: back →
        r = (start ⟨slots⟩).run (front ++ back)) ∧
      (r.outcomes.map Outcome.ticket).Sublist (tickets all) ∧
      match signals.dropWhile Signal.goesOn with
      | [] => r.finished = false ∧ r.outcomes = answers (all.zip met) ∧
          r.pending.slots = all.drop met.length
      | stop :: after => ∃ reason, stop.reason? = some reason ∧ r.finished = true ∧
          r.outcomes = answers (all.zip met) ++ (⟨all.drop met.length⟩ : Pending).failures reason ∧
          r.outcomes.map Outcome.ticket = tickets all ∧ r.pending.slots = queued after := by
  intro r before all met
  have goOn : ∀ signal ∈ before, signal.goesOn = true := List.all_eq_true.mp List.all_takeWhile
  have few : met.length ≤ all.length := by
    rw [List.length_append]
    exact Signal.length_met_le _ _
  have ran : r = run ⟨⟨all.drop met.length⟩, heard before, answers (all.zip met), false⟩
      (signals.dropWhile Signal.goesOn) := by
    have first : run ⟨⟨slots⟩, [], [], false⟩ before = _ := run_goingOn goOn
    rw [List.nil_append, List.nil_append] at first
    rw [← first, ← start, ← run_append, List.takeWhile_append_dropWhile]
  have answered := map_ticket_answers all few
  have split : tickets (all.take met.length) ++ tickets (all.drop met.length) = tickets all := by
    rw [tickets, tickets, ← List.filterMap_append, List.take_append_drop, tickets]
  have unchanged : ∀ front back, signals = front ++ .closeFlag false :: back →
      r = (start ⟨slots⟩).run (front ++ back) := by
    intro front back same
    have still (r : Reader) : r.step (.closeFlag false) = r := by simp [step]
    change (start ⟨slots⟩).run signals = _
    rw [same, run_append, run_append, run, List.foldl_cons, still, ← run]
  clear_value r
  rcases left : signals.dropWhile Signal.goesOn with _ | ⟨stop, after⟩
  · rw [left] at ran
    subst ran
    refine ⟨rfl, Signal.met_sublist _ _, few, Signal.met_eq _ _, unchanged, ?_, rfl, rfl, rfl⟩
    change ((answers (all.zip met)).map Outcome.ticket).Sublist _
    rw [answered, ← split]
    exact List.sublist_append_left _ _
  · obtain ⟨reason, stops⟩ : ∃ reason, stop.reason? = some reason := by
      have ends := List.head?_dropWhile_not Signal.goesOn signals
      rw [left, List.head?_cons] at ends
      exact Option.isSome_iff_exists.mp (Option.isNone_eq_false_iff.mp ends)
    have told : ((answers (all.zip met) ++ (⟨all.drop met.length⟩ : Pending).failures reason).map
        Outcome.ticket) = tickets all := by
      rw [List.map_append, answered, map_ticket_failures, split]
    rw [left, run, List.foldl_cons, step_stop stops, ← run, run_finished] at ran
    subst ran
    refine ⟨rfl, Signal.met_sublist _ _, few, Signal.met_eq _ _, unchanged, ?_, reason, stops,
      rfl, rfl, told, rfl⟩
    exact told ▸ .refl _

/-- Messages and slots are not paired by their numbers.  Here the second message finds no slot; two
slots are queued behind it, and the third message is taken by the second slot, though there is a
third one. -/
theorem slots_unnumbered :
    ¬ ∀ (slots : List Slot) (front : List Signal) (bytes : Bytes) (ticket : Ticket),
    (∀ signal ∈ front, signal.goesOn = true) →
    (slots ++ queued front)[(heard front).length]? = some (some ticket) →
    ∃ text, ⟨ticket, .ok text⟩ ∈ ((start ⟨slots⟩).run (front ++ [.message bytes])).outcomes := by
  intro numbered
  let front : List Signal :=
    [.message "a".toUTF8.toList, .message "b".toUTF8.toList, .sent (some 1), .sent (some 2)]
  have taken : ((start ⟨[some 0]⟩).run (front ++ [.message "c".toUTF8.toList])).outcomes =
      [⟨0, .ok "a"⟩, ⟨1, .ok "c"⟩] := by cbv
  obtain ⟨text, mem⟩ := numbered [some 0] front "c".toUTF8.toList 2 (by decide) rfl
  rw [taken] at mem
  simp at mem

-- What nobody asked takes no slot, so the request behind it still gets the response that is its
-- own.
example :
    ((start ⟨[some 0]⟩).run
      [.message "a".toUTF8.toList, .message "b".toUTF8.toList, .sent none, .sent (some 1),
      .closeFlag false, .message "c".toUTF8.toList, .message "d".toUTF8.toList, .sent (some 2),
        .closeFlag true]) =
      ⟨⟨[]⟩, ["a", "b", "c", "d"],
        [⟨0, .ok "a"⟩, ⟨1, .ok "d"⟩, ⟨2, .error (.transport "Connection closed")⟩], true⟩ := by
  cbv

end Reader

end PeerScript.Wire
