import Mathlib.Data.List.Basic
import Mathlib.Data.List.Perm.Basic
import PeerScript.Peer.Table

/-!
# Connections come and go once

Many tasks use the table of connections at the same time: connections are accepted and opened,
closed from this side, and removed when their reader or their serving ends or when a text cannot be
written; all of them may be closed at once; remotes are entered and left.  Each access to the table,
with the event that it raises, is one step, and a task that accesses the table more than once may be
interrupted in between.  So a run is a list of accesses, in which those of all tasks stand in any
order.

`Sound` is what every access keeps, and `connections_accounted` reads off it what holds in every
state: the numbers of the connections count from one in the order in which they were made, each of
them was reported once and is either in the table or was reported once to be gone, and the remote
that is entered is an outbound connection of the table.
-/

set_option autoImplicit false

namespace PeerScript.Peer

open Wire (Slot)

/-! ## Accesses -/

/-- What a task has still to do with the table. -/
inductive Task where
  /-- closes the connections that were there when it began, one after another -/
  | closing (ids : List ConnectionId)
  /-- has found the remote of a connection, and writes a text there -/
  | sending (id : ConnectionId) (text : String)

/-- One access to the table. -/
inductive Access where
  /-- a connection is made: one that was accepted, or one that was opened, which has a remote -/
  | connect (remote : Option Remote)
  /-- enters the given remote, or else the newest -/
  | enter (id : Option ConnectionId)
  | leave
  /-- a connection is closed, or its reader has ended, or its serving has -/
  | remove (id : ConnectionId)
  /-- begins to close all connections -/
  | closeAll
  /-- begins to send a text -/
  | send (id : ConnectionId) (text : String)
  /-- a task does what is next for it; a text that it writes is written -/
  | proceed (task : Nat)
  /-- a task cannot write its text -/
  | fail (task : Nat)
  /-- a text comes on a connection that was accepted -/
  | receive (id : ConnectionId) (text : String)
  /-- a text is answered -/
  | answer (id : ConnectionId) (text reply : String)
  /-- a response comes on a connection that was opened -/
  | respond (id : ConnectionId) (text : String)

/-- The table without a connection, if it was there. -/
def Table.discard (t : Table) (id : ConnectionId) : Table := ((t.remove id).map Prod.fst).getD t

/-- The table of connections and the tasks that are not over.  A task that is over does nothing. -/
structure Traffic where
  table : Table
  tasks : List Task

namespace Traffic

/-- No connections and no tasks. -/
def start (historyLimit : Nat) : Traffic := ⟨.new historyLimit, []⟩

/-- Changes the table. -/
def onTable (x : Traffic) (change : Table → Table) : Traffic := { x with table := change x.table }

/-- A task is over. -/
def finish (x : Traffic) (task : Nat) : Traffic :=
  { x with tasks := x.tasks.set task (.closing []) }

/-- What is next for a task. -/
def proceed (x : Traffic) (task : Nat) : Task → Option Traffic
  | .closing [] => none
  | .closing (id :: ids) =>
      some ⟨x.table.discard id, x.tasks.set task (.closing ids)⟩
  | .sending id text => some ((x.onTable (·.noteSent id text)).finish task)

/-- What an access does, if it can be made.  A remote that is not there is not entered, and nothing
is sent to it. -/
def step (x : Traffic) : Access → Option Traffic
  | .connect remote => some (x.onTable fun t => (t.add remote).1)
  | .enter id =>
      match x.table.enter id with
      | .ok (table, _) => some { x with table := table }
      | .error _ => some x
  | .leave => some (x.onTable fun t => t.leave.1)
  | .remove id => some (x.onTable (·.discard id))
  | .closeAll => some { x with tasks := x.tasks ++ [.closing x.table.ids] }
  | .send id text =>
      match x.table.remote id with
      | .ok _ => some { x with tasks := x.tasks ++ [.sending id text] }
      | .error _ => some x
  | .proceed task => x.tasks[task]?.bind (x.proceed task)
  | .fail task =>
      match x.tasks[task]? with
      | some (.sending id _) => some ((x.onTable (·.discard id)).finish task)
      | _ => none
  | .receive id text => some (x.onTable (·.noteReceived id text))
  | .answer id text reply =>
    some (x.onTable fun t => (t.noteSent id reply).raise (.request id text))
  | .respond id text => some (x.onTable fun t => (t.respond id text).1)

/-- Accesses, one after another. -/
def run (x : Traffic) : List Access → Option Traffic
  | [] => some x
  | a :: accesses => (x.step a).bind (run · accesses)

end Traffic

/-! ## What every access keeps -/

/-- The connection that an event reports to be there. -/
def Event.made? : Event → Option ConnectionId
  | .connected id _ => some id
  | _ => none

/-- The connection that an event reports to be gone. -/
def Event.gone? : Event → Option ConnectionId
  | .disconnected id => some id
  | _ => none

namespace Table

/-- The connections that were reported to be there, in that order. -/
def made (t : Table) : List ConnectionId := t.events.filterMap Event.made?

/-- The connections that were reported to be gone, in that order. -/
def gone (t : Table) : List ConnectionId := t.events.filterMap Event.gone?

/-- The connections of the table, oldest first. -/
def live (t : Table) : List ConnectionId := t.entries.map Prod.fst

/-- Whether a connection is in the table and scripts can be sent on it. -/
def IsOutbound (t : Table) (id : ConnectionId) : Prop :=
  ∃ entry, t.find? id = some entry ∧ entry.remote.isSome = true

/-- An entry is that of its connection, and has a remote if the connection is outbound. -/
structure IsFiled (id : ConnectionId) (entry : Entry) : Prop where
  client : entry.client.id = id
  direction : entry.client.direction = if entry.remote.isSome then .outbound else .inbound

/-- What holds of the table between any two accesses. -/
structure Sound (t : Table) : Prop where
  first : 1 ≤ t.nextId
  /-- connections are made under consecutive numbers, each of which is reported once -/
  made : t.made = List.range' 1 (t.nextId - 1)
  /-- a connection is in the table, or was reported to be gone -/
  account : t.made.Perm (t.live ++ t.gone)
  /-- the table is in the order of the numbers -/
  ordered : t.live.Sublist t.made
  filed : ∀ p ∈ t.entries, IsFiled p.1 p.2
  entered : ∀ id, t.entered = some id → t.IsOutbound id

variable {t t' : Table} {id : ConnectionId}

theorem made_raise (t : Table) (e : Event) : (t.raise e).made = t.made ++ e.made?.toList := by
  simp only [made, raise, List.filterMap_append, List.append_cancel_left_eq]
  cases h : e.made? <;> simp [h]

theorem gone_raise (t : Table) (e : Event) : (t.raise e).gone = t.gone ++ e.gone?.toList := by
  simp only [gone, raise, List.filterMap_append, List.append_cancel_left_eq]
  cases h : e.gone? <;> simp [h]

/-- A connection has an entry if it is in the table. -/
theorem find?_isSome (t : Table) (id : ConnectionId) :
    (t.find? id).isSome = true ↔ id ∈ t.live := by
  rw [find?, List.lookup_isSome_iff, live, List.mem_map]
  constructor
  · rintro ⟨p, mem, same⟩
    exact ⟨p, mem, (eq_of_beq same).symm⟩
  · rintro ⟨p, mem, rfl⟩
    exact ⟨p, mem, beq_self_eq_true _⟩

theorem mem_of_find? {entry : Entry} (h : t.find? id = some entry) : (id, entry) ∈ t.entries := by
  obtain ⟨before, behind, shape, -⟩ := List.lookup_eq_some_iff.mp h
  rw [shape]
  exact List.mem_append_right _ List.mem_cons_self

namespace Sound

theorem nodup_made (h : t.Sound) : t.made.Nodup := h.made ▸ List.nodup_range'

theorem nodup (h : t.Sound) : (t.live ++ t.gone).Nodup := h.account.nodup_iff.mp h.nodup_made

theorem lt_of_live (h : t.Sound) (mem : id ∈ t.live) : id < t.nextId := by
  have made := h.ordered.subset mem
  rw [h.made, List.mem_range'_1] at made
  exact Nat.lt_of_lt_of_eq made.2 (Nat.add_sub_cancel' h.first)

/-- An entry is found under its number. -/
theorem find?_of_mem (h : t.Sound) {entry : Entry} (mem : (id, entry) ∈ t.entries) :
    t.find? id = some entry := by
  have nodup : (t.entries.map Prod.fst).Nodup := (List.nodup_append.mp h.nodup).1
  unfold find?
  generalize t.entries = entries at mem nodup
  induction entries with
  | nil => cases mem
  | cons p entries ih =>
      rw [List.map_cons, List.nodup_cons] at nodup
      rcases List.mem_cons.mp mem with rfl | behind
      · exact List.lookup_cons_self
      · have other : id ≠ p.1 := by
          intro same
          exact nodup.1 (List.mem_map.mpr ⟨_, behind, same⟩)
        obtain ⟨k, e⟩ := p
        rw [List.lookup_cons, beq_false_of_ne other]
        exact ih behind nodup.2

theorem mem_outbound (h : t.Sound) : id ∈ t.outbound ↔ t.IsOutbound id := by
  simp only [outbound, List.mem_map, List.mem_filter, Prod.exists, exists_and_right,
    exists_eq_right, IsOutbound]
  exact exists_congr fun entry => and_congr_left fun _ => ⟨h.find?_of_mem, mem_of_find?⟩

/-- No connection was made. -/
theorem new (limit : Nat) : (Table.new limit).Sound where
  first := Nat.le_refl 1
  made := rfl
  account := .refl _
  ordered := .refl _
  filed := nofun
  entered := nofun

/-- Nothing that counts is different. -/
theorem of_eq (h : t.Sound) (next : t'.nextId = t.nextId) (entries : t'.entries = t.entries)
    (entered : t'.entered = t.entered) (made : t'.made = t.made) (gone : t'.gone = t.gone) :
    t'.Sound := by
  have live : t'.live = t.live := congrArg (List.map Prod.fst) entries
  have found : ∀ id, t'.find? id = t.find? id := fun id => congrArg (List.lookup id) entries
  refine ⟨next ▸ h.first, ?_, ?_, ?_, entries ▸ h.filed, fun id was => ?_⟩
  · rw [made, next]
    exact h.made
  · rw [made, live, gone]
    exact h.account
  · rw [live, made]
    exact h.ordered
  · obtain ⟨entry, there, remote⟩ := h.entered id (entered ▸ was)
    exact ⟨entry, (found id).trans there, remote⟩

/-- A connection is made. -/
theorem add (h : t.Sound) (remote : Option Remote) : (t.add remote).1.Sound := by
  have first := h.first
  have made : (t.add remote).1.made = t.made ++ [t.nextId] := made_raise _ _
  have gone : (t.add remote).1.gone = t.gone := (gone_raise _ _).trans (List.append_nil _)
  have live : (t.add remote).1.live = t.live ++ [t.nextId] := List.map_append
  have fresh : t.nextId ∉ t.live := fun mem => Nat.lt_irrefl _ (h.lt_of_live mem)
  have found : ∀ id ∈ t.live, (t.add remote).1.find? id = t.find? id := fun id mem => by
    obtain ⟨entry, there⟩ := Option.isSome_iff_exists.mp ((t.find?_isSome id).mpr mem)
    have lookup : t.entries.lookup id = some entry := there
    change (t.entries ++ [_]).lookup id = t.entries.lookup id
    rw [List.lookup_append, lookup, Option.some_or]
  refine ⟨Nat.le_succ_of_le first, ?_, ?_, ?_, fun p mem => ?_, fun id was => ?_⟩
  · change _ = List.range' 1 (t.nextId + 1 - 1)
    rw [made, h.made, Nat.add_sub_cancel]
    conv => rhs; rw [← Nat.sub_add_cancel first, List.range'_concat]
    rw [Nat.one_mul, Nat.add_comm 1, Nat.sub_add_cancel first]
  · rw [made, live, gone, List.append_assoc]
    refine (h.account.append_right _).trans ?_
    rw [List.append_assoc]
    exact .append_left _ List.perm_append_comm
  · rw [made, live]
    exact h.ordered.append (.refl _)
  · rcases List.mem_append.mp mem with old | new
    · exact h.filed p old
    · cases List.mem_singleton.mp new
      exact ⟨rfl, rfl⟩
  · obtain ⟨entry, there, isRemote⟩ := h.entered id was
    have mem : id ∈ t.live := (t.find?_isSome id).mp (Option.isSome_of_mem there)
    exact ⟨entry, (found id mem).trans there, isRemote⟩

/-- Whoever removes a connection first reports it, and it is not entered any more. -/
theorem discard (h : t.Sound) (id : ConnectionId) : (t.discard id).Sound := by
  unfold Table.discard Table.remove
  cases there : t.find? id with
  | none => exact h
  | some entry =>
      rw [Option.map_some, Option.map_some, Option.getD_some]
      have nodup := h.nodup
      have mem : id ∈ t.live := (t.find?_isSome id).mp (there ▸ rfl)
      have liveNodup : t.live.Nodup := (List.nodup_append.mp nodup).1
      generalize same : ({ t with
        entries := Association.erase id t.entries
        entered := if t.entered = some id then none else t.entered } : Table) = left
      have entries : left.entries = Association.erase id t.entries := by rw [← same]
      have entered : left.entered = if t.entered = some id then none else t.entered := by
        rw [← same]
      have live : (left.raise (.disconnected id)).live = t.live.erase id := by
        rw [liveNodup.erase_eq_filter]
        change left.entries.map Prod.fst = _
        rw [entries, Association.erase, Table.live, List.filter_map]
        refine congrArg (List.map Prod.fst) (List.filter_congr fun p _ => ?_)
        by_cases other : p.1 = id <;> simp [other]
      have made : (left.raise (.disconnected id)).made = t.made := by
        rw [made_raise, ← same]
        exact List.append_nil _
      have gone : (left.raise (.disconnected id)).gone = t.gone ++ [id] := by
        rw [gone_raise, ← same]
        rfl
      have next : (left.raise (.disconnected id)).nextId = t.nextId := by rw [← same]; rfl
      refine ⟨next ▸ h.first, ?_, ?_, ?_, fun p mem => ?_, fun other was => ?_⟩
      · rw [made, next]
        exact h.made
      · rw [made, live, gone]
        have moved : (t.live ++ t.gone).Perm ((t.live.erase id ++ [id]) ++ t.gone) :=
          .append_right _ ((List.perm_cons_erase mem).trans (List.perm_append_singleton _ _).symm)
        refine h.account.trans (moved.trans ?_)
        rw [List.append_assoc]
        exact .append_left _ List.perm_append_comm
      · rw [live, made]
        exact List.erase_sublist.trans h.ordered
      · change p ∈ left.entries at mem
        rw [entries] at mem
        exact h.filed p (List.mem_of_mem_filter mem)
      · change left.entered = some other at was
        rw [entered] at was
        split at was
        · cases was
        · rename_i ne
          obtain ⟨entry, there, remote⟩ := h.entered other was
          have differs : other ≠ id := fun eq => ne (eq ▸ was)
          refine ⟨entry, ?_, remote⟩
          change left.entries.lookup other = _
          rw [entries, Association.lookup_erase, if_neg differs]
          exact there

/-- An entry may be changed as long as it remains that of its connection. -/
theorem update (h : t.Sound) {change : Entry → Entry}
    (kept : ∀ e, t.find? id = some e →
      (change e).client.id = e.client.id ∧ (change e).client.direction = e.client.direction ∧
        (change e).remote.isSome = e.remote.isSome) :
    (t.update id change).Sound := by
  have live : (t.update id change).live = t.live := by
    change (Association.update id change t.entries).map Prod.fst = t.entries.map Prod.fst
    rw [Association.update, List.map_map]
    refine List.map_congr_left fun p _ => ?_
    simp only [Function.comp_apply]
    split <;> rfl
  refine ⟨h.first, h.made, ?_, ?_, fun p mem => ?_, fun other was => ?_⟩
  · rw [live]
    exact h.account
  · rw [live]
    exact h.ordered
  · obtain ⟨⟨k, e⟩, among, rfl⟩ := List.mem_map.mp mem
    have filed := h.filed _ among
    dsimp only
    split
    · rename_i same
      obtain ⟨client, direction, remote⟩ := kept e (same ▸ h.find?_of_mem among)
      refine ⟨client.trans filed.client, ?_⟩
      rw [direction, remote]
      exact filed.direction
    · exact filed
  · obtain ⟨entry, there, isRemote⟩ := h.entered other was
    have lookup : t.entries.lookup other = some entry := there
    have changed := Association.lookup_update id other change t.entries
    rw [lookup, Option.map_some] at changed
    split at changed
    · rename_i same
      obtain ⟨-, -, remote⟩ := kept entry (same ▸ there)
      exact ⟨change entry, same ▸ changed, remote.trans isRemote⟩
    · exact ⟨entry, changed, isRemote⟩

theorem raise (h : t.Sound) {e : Event} (made : e.made? = none) (gone : e.gone? = none) :
    (t.raise e).Sound := by
  refine h.of_eq rfl rfl rfl ?_ ?_
  · rw [made_raise, made, Option.toList_none, List.append_nil]
  · rw [gone_raise, gone, Option.toList_none, List.append_nil]

theorem noteSent (h : t.Sound) (id : ConnectionId) (text : String) : (t.noteSent id text).Sound :=
  h.update fun _ _ => ⟨rfl, rfl, rfl⟩

theorem noteReceived (h : t.Sound) (id : ConnectionId) (text : String) :
    (t.noteReceived id text).Sound :=
  h.update fun _ _ => ⟨rfl, rfl, rfl⟩

theorem respond (h : t.Sound) (id : ConnectionId) (text : String) :
    (t.respond id text).1.Sound := by
  have taken : (t.takeResponse id text).Sound := (h.noteReceived id text).raise rfl rfl
  unfold Table.respond
  dsimp only
  split
  · rename_i client remote there
    refine taken.update fun e found => ⟨rfl, rfl, ?_⟩
    -- the entry that is given the slots that are left has slots already
    cases there.symm.trans found
    rfl
  · exact taken

/-- Only an outbound connection is entered. -/
theorem enter (h : t.Sound) {asked : Option ConnectionId} (entered : t.enter asked = .ok (t', id)) :
    t' = { t with entered := some id } ∧ t.IsOutbound id := by
  unfold Table.enter at entered
  split at entered
  · rename_i asked
    split at entered
    · rename_i remote found
      cases entered
      refine ⟨rfl, ?_⟩
      unfold Table.remote at found
      split at found
      · rename_i client remote there
        exact ⟨_, there, rfl⟩
      · cases found
      · cases found
    · cases entered
  · split at entered
    · rename_i newest greatest
      cases entered
      exact ⟨rfl, h.mem_outbound.mp (List.max?_mem greatest)⟩
    · cases entered

/-- Without a number, the outbound connection with the greatest number is entered. -/
theorem enter_newest (h : t.Sound) :
    t.enter none = .ok (t', id) ↔
      t' = { t with entered := some id } ∧ t.IsOutbound id ∧ ∀ other, t.IsOutbound other →
      other ≤ id := by
  have greatest : t.outbound.max? = some id ↔
      t.IsOutbound id ∧ ∀ other, t.IsOutbound other → other ≤ id := by
    rw [List.max?_eq_some_iff, h.mem_outbound]
    refine and_congr_right fun _ => forall_congr' fun other => ?_
    rw [h.mem_outbound]
  unfold Table.enter
  constructor
  · intro entered
    dsimp only at entered
    split at entered
    · rename_i newest isNewest
      cases entered
      exact ⟨rfl, greatest.mp isNewest⟩
    · cases entered
  · rintro ⟨rfl, is⟩
    dsimp only
    rw [greatest.mpr is]

/-- Nothing can be entered if there is no outbound connection. -/
theorem enter_none_error (h : t.Sound) :
    (∃ fault, t.enter none = .error fault) ↔ ∀ id, ¬ t.IsOutbound id := by
  have empty : t.outbound.max? = none ↔ ∀ id, ¬ t.IsOutbound id := by
    rw [List.max?_eq_none_iff, List.eq_nil_iff_forall_not_mem]
    refine forall_congr' fun id => ?_
    rw [h.mem_outbound]
  unfold Table.enter
  constructor
  · rintro ⟨fault, failed⟩
    dsimp only at failed
    split at failed
    · cases failed
    · exact empty.mp ‹_›
  · intro nothing
    dsimp only
    rw [empty.mpr nothing]
    exact ⟨_, rfl⟩

theorem withEntered (h : t.Sound) (is : t.IsOutbound id) : { t with entered := some id }.Sound :=
  ⟨h.first, h.made, h.account, h.ordered, h.filed, fun _ was => Option.some.inj was ▸ is⟩

theorem leave (h : t.Sound) : t.leave.1.Sound :=
  ⟨h.first, h.made, h.account, h.ordered, h.filed, nofun⟩

end Sound

end Table

namespace Traffic

variable {x y : Traffic}

/-- Every access keeps what holds of the table. -/
theorem step_sound {a : Access} (h : x.table.Sound) (stepped : x.step a = some y) :
    y.table.Sound := by
  cases a with
  | connect remote =>
      cases stepped
      exact h.add remote
  | enter asked =>
      unfold step at stepped
      dsimp only at stepped
      split at stepped
      · rename_i entered
        cases stepped
        obtain ⟨rfl, is⟩ := h.enter entered
        exact h.withEntered is
      · cases stepped
        exact h
  | leave =>
      cases stepped
      exact h.leave
  | remove id =>
      cases stepped
      exact h.discard id
  | closeAll =>
      cases stepped
      exact h
  | send id text =>
      unfold step at stepped
      dsimp only at stepped
      split at stepped <;> cases stepped <;> exact h
  | proceed task =>
      obtain ⟨now, -, proceeded⟩ := Option.bind_eq_some_iff.mp stepped
      cases now with
      | closing ids =>
          cases ids with
          | nil => cases proceeded
          | cons id ids =>
              cases proceeded
              exact h.discard id
      | sending id text =>
          cases proceeded
          exact h.noteSent id text
  | fail task =>
      unfold step at stepped
      dsimp only at stepped
      split at stepped
      · cases stepped
        exact h.discard _
      · cases stepped
  | receive id text =>
      cases stepped
      exact h.noteReceived id text
  | answer id text reply =>
      cases stepped
      exact (h.noteSent id reply).raise rfl rfl
  | respond id text =>
      cases stepped
      exact h.respond id text

/-- What holds of the table is kept by accesses, however the tasks take turns. -/
theorem run_sound {accesses : List Access} (h : x.table.Sound) (ran : x.run accesses = some y) :
    y.table.Sound := by
  induction accesses generalizing x with
  | nil =>
      cases ran
      exact h
  | cons a accesses ih =>
      obtain ⟨between, stepped, rest⟩ := Option.bind_eq_some_iff.mp ran
      exact ih (step_sound h stepped) rest

end Traffic

/-- What holds of the connections after any accesses, in whatever order the tasks make them.

Connections have the numbers 1, 2, 3, … in the order in which they are made, and each was reported
once to be there.  Each is in the table or was reported once to be gone, but not both, whoever else
removes it.  The remote that is entered is an outbound connection of the table; to enter a remote
without a number enters the outbound connection with the greatest number, and fails only if there is
none.

Numbers are those of `ConnectionId`, which do not run out. -/
theorem connections_accounted {limit : Nat} {accesses : List Access} {x : Traffic}
    (ran : (Traffic.start limit).run accesses = some x) :
    x.table.made = List.range' 1 (x.table.nextId - 1) ∧
    x.table.made.Perm (x.table.live ++ x.table.gone) ∧
    x.table.made.Nodup ∧ x.table.live.Nodup ∧ x.table.gone.Nodup ∧
    x.table.live.Pairwise (· < ·) ∧
    (∀ p ∈ x.table.entries, Table.IsFiled p.1 p.2) ∧
    (∀ id, x.table.entered = some id → x.table.IsOutbound id) ∧
    (∀ t id, x.table.enter none = .ok (t, id) ↔
      t = { x.table with entered := some id } ∧ x.table.IsOutbound id ∧
        ∀ other, x.table.IsOutbound other → other ≤ id) ∧
    ((∃ fault, x.table.enter none = .error fault) ↔ ∀ id, ¬ x.table.IsOutbound id) := by
  have sound : x.table.Sound := Traffic.run_sound (Table.Sound.new limit) ran
  obtain ⟨liveNodup, goneNodup, -⟩ := List.nodup_append.mp sound.nodup
  have ascending : x.table.live.Pairwise (· < ·) := by
    refine List.Pairwise.sublist sound.ordered ?_
    rw [sound.made]
    exact List.pairwise_lt_range'
  exact ⟨sound.made, sound.account, sound.nodup_made, liveNodup, goneNodup, ascending, sound.filed,
    sound.entered, fun _ _ => sound.enter_newest, sound.enter_none_error⟩

/-- Two connections are opened and one is accepted, and the newer of the two is entered.  Two texts
are being sent there when its reader ends; one of them cannot be written, it is closed, and the
other one cannot be written either. -/
def Access.race : List Access :=
  [.connect (some ⟨0, default⟩), .connect none, .connect (some ⟨1, default⟩), .enter none,
    .send 3 "1", .send 3 "2", .remove 3, .fail 0, .remove 3, .fail 1, .remove 2, .connect none]

/-- Whoever is first reports that the connection is gone, and nobody else does. -/
theorem connections_accounted_race :
    ∃ x, (Traffic.start 8).run Access.race = some x ∧
      x.table.made = [1, 2, 3, 4] ∧ x.table.live = [1, 4] ∧ x.table.gone = [3, 2] ∧
      x.table.entered = none ∧ x.table.made.Perm (x.table.live ++ x.table.gone) := by
  obtain ⟨x, ran, seen⟩ : ∃ x, (Traffic.start 8).run Access.race = some x ∧
      x.table.made = [1, 2, 3, 4] ∧ x.table.live = [1, 4] ∧ x.table.gone = [3, 2] ∧
      x.table.entered = none := ⟨_, rfl, rfl, rfl, rfl, rfl⟩
  exact ⟨x, ran, seen.1, seen.2.1, seen.2.2.1, seen.2.2.2, (connections_accounted ran).2.1⟩

end PeerScript.Peer
