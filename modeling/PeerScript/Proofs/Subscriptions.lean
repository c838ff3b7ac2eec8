import Mathlib.Data.List.Nodup
import Mathlib.Data.List.Perm.Subperm
import PeerScript.Listeners

/-!
# Listeners that subscribe and unsubscribe listeners

A listener that is called may subscribe and unsubscribe listeners, itself included, and may raise
further events.  `Deeds` are what somebody does with listeners, and what the listeners do that are
called meanwhile; `perform` does them and keeps the past: what has happened, and the listeners that
there were behind it.

Which subscriptions there are at a moment is read off the past alone: `registered` are those that
were made and not successfully ended.  `listeners_reentrant` says that the listeners agree with it
at every moment, however calls are nested: each event calls exactly those that were registered when
it was raised.
-/

set_option autoImplicit false

namespace PeerScript.Listeners

variable {η : Type}

/-! ## What happens -/

/-- What happens to listeners. -/
inductive Happening (η : Type) where
  | subscribed (subscription : Nat) (listener : η)
  | unsubscribed (subscription : Nat) (found : Bool)
  /-- an event is raised -/
  | raised
  /-- a listener is called, for the event that was raised at the given place of the past -/
  | called (raising : Nat) (listener : η)

/-- All that has happened, each thing with the listeners that there were behind it. -/
abbrev Past (η : Type) := List (Happening η × Listeners η)

namespace Happening

/-- The subscription that is made. -/
def made? : Happening η → Option (Nat × η)
  | subscribed subscription listener => some (subscription, listener)
  | _ => none

/-- The subscription that is ended. -/
def ended? : Happening η → Option Nat
  | unsubscribed subscription true => some subscription
  | _ => none

/-- The listener that is called for an event. -/
def calls? (raising : Nat) : Happening η → Option η
  | called raising' listener => if raising' = raising then some listener else none
  | _ => none

end Happening

namespace Past

variable (p q : Past η)

/-- The subscriptions that were made, in order. -/
def made : List (Nat × η) := p.filterMap (·.1.made?)

/-- The subscriptions that were ended, in order. -/
def ended : List Nat := p.filterMap (·.1.ended?)

/-- The listeners that were called for an event, in order. -/
def calls (raising : Nat) : List η := p.filterMap (·.1.calls? raising)

/-- The subscriptions that there are: those that were made and not ended, in the order in which they
were made. -/
def registered : List (Nat × η) := (made p).filter (·.1 ∉ ended p)

/-- An event was raised at the place. -/
def IsRaising (raising : Nat) : Prop := ∃ l, p[raising]? = some (.raised, l)

theorem made_append : made (p ++ q) = made p ++ made q := List.filterMap_append

theorem ended_append : ended (p ++ q) = ended p ++ ended q := List.filterMap_append

theorem calls_append (raising : Nat) :
    calls (p ++ q) raising = calls p raising ++ calls q raising :=
  List.filterMap_append

variable {p q}

theorem IsRaising.append {raising : Nat} (h : IsRaising p raising) :
    IsRaising (p ++ q) raising := by
  obtain ⟨l, there⟩ := h
  exact ⟨l, (List.getElem?_append_left (List.getElem?_eq_some_iff.mp there).1).trans there⟩

theorem IsRaising.lt {raising : Nat} (h : IsRaising p raising) : raising < p.length := by
  obtain ⟨l, there⟩ := h
  exact (List.getElem?_eq_some_iff.mp there).1

end Past

/-! ## What is done -/

/-- What somebody does with listeners, one thing after another.  What comes of a thing is known to
what follows. -/
inductive Deeds (η : Type) where
  | done
  | subscribe (listener : η) (next : Nat → Deeds η)
  | unsubscribe (subscription : Nat) (next : Bool → Deeds η)
  /-- raises an event; a listener that is called may remember all that has happened -/
  | emit (reaction : Past η → η → Deeds η) (next : Deeds η)

/-- Listeners, and all that has happened to them. -/
structure Scene (η : Type) where
  listeners : Listeners η
  past : Past η

namespace Scene

/-- Nothing has happened. -/
def start : Scene η := ⟨.empty, []⟩

/-- Something happens, behind which there are the given listeners. -/
def record (s : Scene η) (x : Happening η) (l : Listeners η) : Scene η := ⟨l, s.past ++ [(x, l)]⟩

end Scene

namespace Deeds

/-- Does what is to be done. -/
def perform : Deeds η → Scene η → Scene η
  | done, s => s
  | subscribe listener next, s =>
      let (l, subscription) := s.listeners.subscribe listener
      (next subscription).perform (s.record (.subscribed subscription listener) l)
  | unsubscribe subscription next, s =>
      let (l, found) := s.listeners.unsubscribe subscription
      (next found).perform (s.record (.unsubscribed subscription found) l)
  | emit reaction next, s =>
      let call (listener : η) (now : Scene η) : Scene η :=
        (reaction now.past listener).perform
          (now.record (.called s.past.length listener) now.listeners)
      next.perform (s.listeners.emit call (s.record .raised s.listeners))

/-- All that happens. -/
def past (d : Deeds η) : Past η := (d.perform .start).past

end Deeds

/-! ## What every moment keeps -/

open Past

/-- Listeners as they should be behind the past. -/
structure Agrees (p : Past η) (l : Listeners η) : Prop where
  numbers : (made p).map Prod.fst = List.range' 1 (made p).length
  next : l.next = (made p).length + 1
  entries : l.entries = registered p
  nodup : (ended p).Nodup
  known : ∀ subscription ∈ ended p, subscription ∈ (made p).map Prod.fst

namespace Agrees

variable {p : Past η} {l : Listeners η} (h : Agrees p l)

include h

theorem nodup_made : ((made p).map Prod.fst).Nodup := h.numbers ▸ List.nodup_range'

/-- The number of the next subscription is new. -/
theorem fresh : l.next ∉ (made p).map Prod.fst := by
  rw [h.numbers, h.next, List.mem_range'_1]
  omega

/-- Each subscription that was made is there or was ended. -/
theorem size : l.size + (ended p).length = (made p).length := by
  have among : (((made p).map Prod.fst).filter (· ∈ ended p)).Perm (ended p) := by
    rw [List.perm_ext_iff_of_nodup (h.nodup_made.filter _) h.nodup]
    intro subscription
    simp only [List.mem_filter, decide_eq_true_eq, and_iff_right_iff_imp]
    exact h.known subscription
  have gone : ((made p).filter (·.1 ∈ ended p)).length = (ended p).length := by
    rw [← among.length_eq, List.filter_map, List.length_map]
    rfl
  have split := List.length_eq_length_filter_add (l := made p) (fun x => decide (x.1 ∈ ended p))
  rw [Listeners.size, h.entries, registered, split, gone, Nat.add_comm]
  simp only [decide_not]

/-- One more subscription. -/
theorem subscribe (listener : η) :
    Agrees (p ++ [(.subscribed l.next listener, (l.subscribe listener).1)])
      (l.subscribe listener).1 where
  numbers := by
    rw [made_append, List.map_append, h.numbers, List.length_append, ← List.range'_append_1]
    exact congrArg (List.range' 1 (made p).length ++ ·)
      (congrArg ([·]) (h.next.trans (Nat.add_comm _ _)))
  next := by
    rw [made_append, List.length_append]
    exact congrArg (· + 1) h.next
  entries := by
    have new : l.next ∉ ended p := fun mem => h.fresh (h.known _ mem)
    have still : ended (p ++ [(.subscribed l.next listener, (l.subscribe listener).1)]) = ended p :=
      (ended_append _ _).trans (List.append_nil _)
    rw [registered, still, made_append, List.filter_append]
    change l.entries ++ [(l.next, listener)] = _ ++ [(l.next, listener)].filter _
    rw [h.entries, List.filter_cons_of_pos (by simpa using new)]
    rfl
  nodup := by
    rw [ended_append]
    exact (List.append_nil (ended p)).symm ▸ h.nodup
  known subscription mem := by
    rw [ended_append] at mem
    rw [made_append, List.map_append]
    exact List.mem_append_left _ (h.known _ ((List.append_nil (ended p)) ▸ mem))

/-- Nothing is subscribed or unsubscribed. -/
theorem same {x : Happening η} (made : x.made? = none) (ended : x.ended? = none) :
    Agrees (p ++ [(x, l)]) l := by
  have noneMade : Past.made (p ++ [(x, l)]) = Past.made p := by
    rw [made_append, Past.made, Past.made, List.filterMap_cons, made]
    exact List.append_nil _
  have noneEnded : Past.ended (p ++ [(x, l)]) = Past.ended p := by
    rw [ended_append, Past.ended, Past.ended, List.filterMap_cons, ended]
    exact List.append_nil _
  have registered : registered (p ++ [(x, l)]) = registered p := by
    rw [Past.registered, noneMade, noneEnded, Past.registered]
  exact ⟨noneMade ▸ h.numbers, noneMade ▸ h.next, registered ▸ h.entries, noneEnded ▸ h.nodup,
    noneMade ▸ noneEnded ▸ h.known⟩

/-- A subscription is found if it is there. -/
theorem found_iff (subscription : Nat) :
    (l.unsubscribe subscription).2 = true ↔ subscription ∈ (registered p).map Prod.fst := by
  have shorter : (l.entries.filter (·.1 ≠ subscription)).length ≠ l.entries.length ↔
      ∃ x ∈ l.entries, x.1 = subscription := by
    rw [ne_eq, List.length_filter_eq_length_iff]
    simp
  rw [← h.entries, List.mem_map]
  change decide _ = true ↔ _
  rw [decide_eq_true_eq]
  exact shorter

/-- The subscription is ended, if it was there. -/
theorem unsubscribe (subscription : Nat) :
    Agrees (p ++
      [(.unsubscribed subscription (l.unsubscribe subscription).2, (l.unsubscribe subscription).1)])
    (l.unsubscribe subscription).1 := by
  have found := h.found_iff subscription
  have sameMade : ∀ b l', made (p ++ [(.unsubscribed subscription b, l')]) = made p := fun b l' =>
    (made_append _ _).trans (List.append_nil _)
  cases there : (l.unsubscribe subscription).2 with
  | true =>
      rw [there, eq_self, true_iff, List.mem_map] at found
      obtain ⟨x, mem, same⟩ := found
      obtain ⟨mem, still⟩ := List.mem_filter.mp mem
      have nowEnded : ∀ l', ended (p ++ [(.unsubscribed subscription true, l')]) = ended p ++
          [subscription] :=
        fun l' => ended_append _ _
      refine ⟨(sameMade ..).symm ▸ h.numbers, (sameMade ..).symm ▸ h.next, ?_, ?_,
        fun other mem' => ?_⟩
      · rw [registered, sameMade, nowEnded]
        change l.entries.filter _ = _
        rw [h.entries, registered, List.filter_filter]
        refine List.filter_congr fun y _ => ?_
        simp [not_or, and_comm]
      · rw [nowEnded, List.nodup_append_comm]
        exact List.nodup_cons.mpr ⟨by simpa [same] using still, h.nodup⟩
      · rw [nowEnded, List.mem_append, List.mem_singleton] at mem'
        rw [sameMade]
        rcases mem' with mem' | rfl
        · exact h.known _ mem'
        · exact same ▸ List.mem_map_of_mem mem
  | false =>
      have absent : ∀ x ∈ l.entries, x.1 ≠ subscription := fun x mem same => by
        rw [h.entries] at mem
        exact nomatch there.symm.trans (found.mpr (same ▸ List.mem_map_of_mem mem))
      have unchanged : (l.unsubscribe subscription).1 = l := by
        change { l with entries := l.entries.filter (·.1 ≠ subscription) } = l
        rw [List.filter_eq_self.mpr fun x mem => decide_eq_true (absent x mem)]
      rw [unchanged]
      exact h.same rfl rfl

end Agrees

/-- What is true of something that happens, given what has happened before and the listeners behind
it. -/
structure IsRight (before : Past η) (x : Happening η) (l : Listeners η) : Prop where
  agrees : Agrees (before ++ [(x, l)]) l
  subscribed : ∀ subscription listener, x = .subscribed subscription listener →
    l.entries = registered before ++ [(subscription, listener)]
  unsubscribed : ∀ subscription found, x = .unsubscribed subscription found →
    (found = true ↔ subscription ∈ (registered before).map Prod.fst) ∧
      l.entries = (registered before).filter (·.1 ≠ subscription)
  raised : x = .raised → l.entries = registered before
  called : ∀ raising listener, x = .called raising listener →
    IsRaising before raising ∧ l.entries = registered before

namespace Scene

/-- The listeners agree with the past, and all was right when it happened. -/
structure Sound (s : Scene η) : Prop where
  agrees : Agrees s.past s.listeners
  right : ∀ k x l, s.past[k]? = some (x, l) → IsRight (s.past.take k) x l

namespace Sound

variable {s : Scene η}

theorem start : (Scene.start : Scene η).Sound where
  agrees := ⟨rfl, rfl, rfl, List.nodup_nil, nofun⟩
  right _ _ _ there := nomatch there

variable (h : s.Sound)

include h

/-- A call is one for an event that was raised before. -/
theorem calls_eq_nil {raising : Nat} (later : s.past.length ≤ raising) :
    calls s.past raising = [] := by
  rw [calls, List.filterMap_eq_nil_iff]
  rintro ⟨x, l⟩ mem
  obtain ⟨k, there⟩ := List.getElem?_of_mem mem
  cases x with
  | called raising' listener =>
      have before := ((h.right k _ l there).called raising' listener rfl).1.lt
      rw [List.length_take] at before
      exact if_neg (by omega)
  | _ => rfl

/-- Something right happens. -/
theorem record {x : Happening η} {l : Listeners η} (is : IsRight s.past x l) :
    (s.record x l).Sound where
  agrees := is.agrees
  right k y l' there := by
    change (s.past ++ [(x, l)])[k]? = _ at there
    change IsRight ((s.past ++ [(x, l)]).take k) y l'
    rcases Nat.lt_or_ge k s.past.length with old | new
    · rw [List.getElem?_append_left old] at there
      rw [List.take_append_of_le_length (Nat.le_of_lt old)]
      exact h.right k y l' there
    · obtain rfl : k = s.past.length := by
        have lt := (List.getElem?_eq_some_iff.mp there).1
        rw [List.length_append, List.length_singleton] at lt
        omega
      rw [List.getElem?_concat_length] at there
      cases there
      rwa [List.take_left]

theorem subscribe (listener : η) :
    (s.record (.subscribed s.listeners.next listener)
      (s.listeners.subscribe listener).1).Sound := by
  refine h.record ⟨h.agrees.subscribe listener, ?_, nofun, nofun, nofun⟩
  rintro _ _ ⟨⟩
  exact congrArg (· ++ [(s.listeners.next, listener)]) h.agrees.entries

theorem unsubscribe (subscription : Nat) :
    (s.record (.unsubscribed subscription (s.listeners.unsubscribe subscription).2)
      (s.listeners.unsubscribe subscription).1).Sound := by
  refine h.record ⟨h.agrees.unsubscribe subscription, nofun, ?_, nofun, nofun⟩
  rintro _ _ ⟨⟩
  exact ⟨h.agrees.found_iff subscription, congrArg (List.filter _) h.agrees.entries⟩

theorem raise : (s.record .raised s.listeners).Sound :=
  h.record ⟨h.agrees.same rfl rfl, nofun, nofun, fun _ => h.agrees.entries, nofun⟩

theorem call {raising : Nat} (raised : IsRaising s.past raising) (listener : η) :
    (s.record (.called raising listener) s.listeners).Sound := by
  refine h.record ⟨h.agrees.same rfl rfl, nofun, nofun, nofun, ?_⟩
  rintro _ _ ⟨⟩
  exact ⟨raised, h.agrees.entries⟩

end Sound

/-! ## Who is called -/

/-- The event that was raised at a place has called the listeners that were registered then. -/
def Answered (p : Past η) (raising : Nat) : Prop :=
  calls p raising = (registered (p.take raising)).map Prod.snd

/-- More has happened: events that had been raised before have called the given listeners, and those
that were raised since have called whom they had to. -/
structure Grows (called : Nat → List η) (s s' : Scene η) : Prop where
  past : ∃ more, s'.past = s.past ++ more
  earlier : ∀ raising < s.past.length, calls s'.past raising = calls s.past raising ++
    called raising
  since : ∀ raising, s.past.length ≤ raising → IsRaising s'.past raising → Answered s'.past raising

namespace Grows

variable {s s' s'' : Scene η} {called called' : Nat → List η}

theorem refl (s : Scene η) : s.Grows (fun _ => []) s where
  past := ⟨[], (List.append_nil _).symm⟩
  earlier _ _ := (List.append_nil _).symm
  since _ later raised := absurd raised.lt (Nat.not_lt_of_le later)

theorem le (h : s.Grows called s') : s.past.length ≤ s'.past.length := by
  obtain ⟨more, grown⟩ := h.past
  rw [grown, List.length_append]
  exact Nat.le_add_right _ _

/-- No listener is called later for an event that was raised in between. -/
theorem trans (h : s.Grows called s') (k : s'.Grows called' s'')
    (ended : ∀ raising, s.past.length ≤ raising → called' raising = []) :
    s.Grows (fun raising => called raising ++ called' raising) s'' where
  past := by
    obtain ⟨more, grown⟩ := h.past
    obtain ⟨more', grown'⟩ := k.past
    exact ⟨more ++ more', by rw [grown', grown, List.append_assoc]⟩
  earlier raising before := by
    rw [k.earlier raising (Nat.lt_of_lt_of_le before h.le), h.earlier raising before,
      List.append_assoc]
  since raising later raised := by
    rcases Nat.lt_or_ge raising s'.past.length with between | new
    · obtain ⟨more, grown⟩ := k.past
      obtain ⟨l, there⟩ := raised
      rw [grown, List.getElem?_append_left between] at there
      have answered := h.since raising later ⟨l, there⟩
      rw [Answered, k.earlier raising between, ended raising later, List.append_nil,
        answered, grown, List.take_append_of_le_length (Nat.le_of_lt between)]
    · exact k.since raising new raised

/-- Something happens that is no event. -/
theorem record {x : Happening η} (l : Listeners η) (quiet : x ≠ .raised) :
    s.Grows (fun raising => (x.calls? raising).toList) (s.record x l) where
  past := ⟨_, rfl⟩
  earlier raising _ := by
    refine (calls_append s.past [(x, l)] raising).trans (congrArg (calls s.past raising ++ ·) ?_)
    rw [calls]
    cases called : x.calls? raising with
    | none => exact List.filterMap_cons_none called
    | some listener => exact List.filterMap_cons_some called
  since raising later raised := by
    obtain ⟨l', there⟩ := raised
    change (s.past ++ [(x, l)])[raising]? = _ at there
    rw [List.getElem?_append_right later, List.getElem?_singleton] at there
    split at there
    · exact absurd (congrArg Prod.fst (Option.some.inj there)) quiet
    · exact nomatch there

theorem congr (h : s.Grows called s') (same : ∀ raising, called raising = called' raising) :
    s.Grows called' s' := (funext same : called = called') ▸ h

/-- An event is raised, and the listeners that there are are called for it. -/
theorem raise (sound : s.Sound)
    (h : (s.record .raised s.listeners).Grows
      (fun raising => if raising = s.past.length then s.listeners.entries.map Prod.snd
      else []) s') :
    s.Grows (fun _ => []) s' := by
  have quiet : ∀ raising, calls (s.past ++ [(.raised, s.listeners)]) raising =
      calls s.past raising :=
    fun raising => (calls_append _ _ raising).trans (List.append_nil _)
  have longer : (s.past ++ [(Happening.raised, s.listeners)]).length = s.past.length + 1 :=
    List.length_append
  obtain ⟨more, grown⟩ := h.past
  replace grown : s'.past = s.past ++ ([(.raised, s.listeners)] ++ more) :=
    grown.trans (List.append_assoc ..)
  refine ⟨⟨_, grown⟩, fun raising before => ?_, fun raising later raised => ?_⟩
  · rw [h.earlier raising (longer ▸ Nat.lt_succ_of_lt before), if_neg (Nat.ne_of_lt before)]
    exact congrArg (· ++ []) (quiet raising)
  · rcases Nat.eq_or_lt_of_le later with rfl | later
    · rw [Answered, h.earlier _ (longer ▸ Nat.lt_succ_self _), if_pos rfl]
      change calls (s.past ++ [(.raised, s.listeners)]) s.past.length ++ _ = _
      rw [quiet, sound.calls_eq_nil (Nat.le_refl _), List.nil_append, sound.agrees.entries,
        grown, List.take_left]
    · exact h.since raising (longer ▸ later) raised

end Grows

end Scene

namespace Deeds

open Scene

/-- What is done keeps all right, and whoever raises an event is answered. -/
def IsGood (d : Deeds η) : Prop :=
  ∀ s : Scene η, s.Sound → (d.perform s).Sound ∧ s.Grows (fun _ => []) (d.perform s)

/-- What calling a listener for an event does. -/
def call (reaction : Past η → η → Deeds η) (raising : Nat) (listener : η) (s : Scene η) : Scene η :=
  (reaction s.past listener).perform (s.record (.called raising listener) s.listeners)

/-- One listener after the other is called, whatever the called ones do. -/
theorem calls_good {reaction : Past η → η → Deeds η}
    (good : ∀ past listener, (reaction past listener).IsGood) {raising : Nat}
    (entries : List (Nat × η)) :
    ∀ s : Scene η, s.Sound → IsRaising s.past raising →
      (entries.foldl (fun s entry => call reaction raising entry.2 s) s).Sound ∧
        s.Grows (fun r => if r = raising then entries.map Prod.snd else [])
          (entries.foldl (fun s entry => call reaction raising entry.2 s) s) := by
  induction entries with
  | nil => exact fun s sound _ => ⟨sound, (Grows.refl s).congr fun r => (ite_self _).symm⟩
  | cons entry rest ih =>
      intro s sound raised
      obtain ⟨behind, grows⟩ := good s.past entry.2 _ (sound.call raised entry.2)
      have called :=
        (Grows.record s.listeners (x := .called raising entry.2) nofun).trans grows fun _ _ => rfl
      obtain ⟨more, longer⟩ := called.past
      obtain ⟨final, grows'⟩ := ih _ behind (longer ▸ raised.append)
      refine ⟨final, (called.trans grows' fun r later => if_neg ?_).congr fun r => ?_⟩
      · exact Nat.ne_of_gt (Nat.lt_of_lt_of_le raised.lt later)
      · by_cases same : r = raising
        · simp [Happening.calls?, same]
        · simp [Happening.calls?, same, Ne.symm same]

/-- Whatever is done, all stays right. -/
theorem isGood (d : Deeds η) : d.IsGood := by
  induction d with
  | done => exact fun s sound => ⟨sound, .refl s⟩
  | subscribe listener next ih =>
      intro s sound
      obtain ⟨behind, grows⟩ := ih s.listeners.next _ (sound.subscribe listener)
      exact ⟨behind, (Grows.record _ (x := .subscribed s.listeners.next listener) nofun).trans
        grows fun _ _ => rfl⟩
  | unsubscribe subscription next ih =>
      intro s sound
      obtain ⟨behind, grows⟩ :=
        ih (s.listeners.unsubscribe subscription).2 _ (sound.unsubscribe subscription)
      exact ⟨behind,
        (Grows.record _ (x := .unsubscribed subscription _) nofun).trans grows fun _ _ => rfl⟩
  | emit reaction next ihReaction ihNext =>
      intro s sound
      have raised : IsRaising (s.past ++ [(.raised, s.listeners)]) s.past.length :=
        ⟨s.listeners, List.getElem?_concat_length⟩
      obtain ⟨called, grows⟩ := calls_good ihReaction s.listeners.entries _ sound.raise raised
      obtain ⟨behind, grows'⟩ := ihNext _ called
      exact ⟨behind, (Grows.raise sound grows).trans grows' fun _ _ => rfl⟩

/-- All that is done from the start is right. -/
theorem sound_past (d : Deeds η) : (d.perform .start).Sound := (d.isGood _ .start).1

/-- Every event calls the listeners that are registered when it is raised. -/
theorem answered (d : Deeds η) {raising : Nat} (raised : IsRaising d.past raising) :
    Answered d.past raising :=
  (d.isGood _ .start).2.since raising (Nat.zero_le _) raised

end Deeds

/-- **Listeners that are changed while they are called.**  Subscriptions get different numbers.
Whatever happens, the listeners behind it are those that were subscribed and not unsubscribed, in
the order of their subscriptions, and as many as there were subscriptions less those that were
ended.  A subscription is found, and then removed and no other with it, exactly if it is registered.
An event calls the listeners that are registered when it is raised, each once and in order, whatever
they do meanwhile. -/
theorem listeners_reentrant (d : Deeds η) :
    ((made d.past).map Prod.fst).Nodup ∧
      ∀ k x l, d.past[k]? = some (x, l) →
        l.entries = registered (d.past.take (k + 1)) ∧
          l.size + (ended (d.past.take (k + 1))).length = (made (d.past.take (k + 1))).length ∧
          match x with
          | .subscribed subscription listener =>
            l.entries = registered (d.past.take k) ++ [(subscription, listener)]
          | .unsubscribed subscription found =>
              (found = true ↔ subscription ∈ (registered (d.past.take k)).map Prod.fst) ∧
                l.entries = (registered (d.past.take k)).filter (·.1 ≠ subscription)
          | .raised =>
              l.entries = registered (d.past.take k) ∧
                calls d.past k = (registered (d.past.take k)).map Prod.snd
          | .called raising _ =>
              l.entries = registered (d.past.take k) ∧ raising < k ∧ IsRaising d.past raising := by
  refine ⟨d.sound_past.agrees.nodup_made, fun k x l there => ?_⟩
  have right : IsRight (d.past.take k) x l := d.sound_past.right k x l there
  have behind : d.past.take (k + 1) = d.past.take k ++ [(x, l)] := by
    rw [List.take_add_one, there, Option.toList_some]
  rw [behind]
  refine ⟨right.agrees.entries, right.agrees.size, ?_⟩
  cases x with
  | subscribed subscription listener => exact right.subscribed _ _ rfl
  | unsubscribed subscription found => exact right.unsubscribed _ _ rfl
  | raised => exact ⟨right.raised rfl, d.answered ⟨l, there⟩⟩
  | called raising listener =>
      obtain ⟨raised, same⟩ := right.called _ _ rfl
      have before := raised.lt
      rw [List.length_take] at before
      refine ⟨same, by omega, ?_⟩
      have all := raised.append (q := d.past.drop k)
      rwa [List.take_append_drop] at all

/-- The first of two listeners ends its own subscription and the other one's, and makes a new one;
then the event is raised again. -/
def meddling : Deeds String :=
  .subscribe "first" fun first => .subscribe "second" fun second =>
    .emit (fun _ listener =>
        if listener = "first" then
          .unsubscribe first fun _ => .unsubscribe second fun _ => .subscribe "third" fun _ => .done
        else .done)
      (.emit (fun _ _ => .done) .done)

theorem listeners_reentrant_meddling :
    meddling.past[2]?.map Prod.fst = some .raised ∧ calls meddling.past 2 = ["first", "second"] ∧
      meddling.past[8]?.map Prod.fst = some .raised ∧ calls meddling.past 8 = ["third"] :=
  ⟨rfl, ((listeners_reentrant meddling).2 2 .raised _ rfl).2.2.2, rfl,
    ((listeners_reentrant meddling).2 8 .raised _ rfl).2.2.2⟩

end PeerScript.Listeners
