import PeerScript.Proofs.Messages.Readers

/-!
# Trees that follow each other

The statements of a script, those of a body and the terms of a script are read one after another.
`Lists` says what is read, whatever bounds the number of them.  What is listed of a text alone is
also listed in front of whatever is listed behind the text in the whole.
-/

set_option autoImplicit false

namespace PeerScript.Script

open PeerScript.Script.Parser

/-- What stands between the items of a list and behind it. -/
structure Layout where
  /-- what is passed over in front of an item -/
  separates : Token → Bool
  /-- what ends the list, which is not passed over -/
  closes : Token → Bool
  /-- what may follow an item -/
  follows : Token → Bool
  finish_closes : closes .finish = true
  stays : ∀ t, closes t = true → separates t = false

/-- From one cursor to another one stand the given items. -/
inductive Lists (layout : Layout) (item : Parser Tree) : Cursor → List Tree → Cursor → Prop
  | done {c : Cursor} (closes : layout.closes (c.drop layout.separates).next.token = true) :
      Lists layout item c [] (c.drop layout.separates)
  | item {c c₂ c' : Cursor} {t : Tree} {ts : List Tree}
      (opens : layout.closes (c.drop layout.separates).next.token = false)
      (read : item (c.drop layout.separates) = .ok (t, c₂))
      (follows : layout.follows c₂.next.token = true) (rest : Lists layout item c₂ ts c') :
      Lists layout item c (t :: ts) c'

namespace Lists

variable {s : Seam} {layout : Layout} {item item' : Parser Tree} {c c' d e : Cursor}
  {ts us : List Tree}

/-- What separates items may be passed over before. -/
theorem of_drop (same : d.drop layout.separates = c.drop layout.separates)
    (h : Lists layout item c ts c') : Lists layout item d ts c' := by
  cases h with
  | done closes => exact same ▸ .done (same ▸ closes)
  | item opens read follows rest => exact .item (same ▸ opens) (same ▸ read) follows rest

/-- What has been listed of the text alone is listed in the whole, in front of what stands there. -/
structure Leads (s : Seam) (layout : Layout) (item' : Parser Tree) (ts : List Tree)
    (c c' d : Cursor) (new : Trace) (us : List Tree) (d' : Cursor) : Prop where
  moved : c.Moved new c'
  copies : Copies s ts us new
  counted : ts.length ≤ new.used
  meets : s.Meets c' d'
  goes_on : ∀ {vs e}, Lists layout item' d' vs e → Lists layout item' d (us ++ vs) e

/-- A list ends in front of what closes it. -/
theorem closed (h : Lists layout item c ts c') : layout.closes c'.next.token = true := by
  induction h with
  | done closes => exact closes
  | item _ _ _ _ ih => exact ih

/-- Where the text goes on behind the list, the list ends there in the whole as well. -/
theorem Leads.done {new : Trace} {d' : Cursor} (leads : Leads s layout item' ts c c' d new us d')
    (h : Lists layout item c ts c') (more : ¬ c'.IsOver) : Lists layout item' d us d' := by
  have closes : layout.closes d'.next.token = true := by
    rw [leads.meets.next more]
    exact h.closed
  have stands : d'.drop layout.separates = d' := by
    have there := List.length_pos_iff.mpr leads.meets.whole.there
    have le := leads.meets.length_le
    have stays := layout.stays _ closes
    rcases shape : d'.rest with _ | ⟨first, rest⟩
    · rw [shape, List.length_nil] at le
      omega
    · rw [Cursor.next, shape, List.headD_cons] at stays
      rw [Cursor.drop, shape, List.dropWhile_cons_of_neg (by simp [stays]), ← shape]
  have last : Lists layout item' d' [] d' := by
    have last : Lists layout item' d' [] (d'.drop layout.separates) := .done (by rwa [stands])
    rwa [stands] at last
  simpa using leads.goes_on last

variable (items : ∀ room, Carries s .loose room anywhere item item' (Taken s))

include items

theorem moved (h : Lists layout item c ts c') (whole : c.IsWhole) :
    ∃ new us, c.Moved new c' ∧ Copies s ts us new ∧ ts.length ≤ new.used := by
  induction h with
  | done closes =>
    exact ⟨_, [], .drop whole (layout.stays _ layout.finish_closes), .nil rfl, Nat.le_refl _⟩
  | @item c c₂ c' t ts opens read follows rest ih =>
      have first := Cursor.Moved.drop whole (layout.stays _ layout.finish_closes)
      obtain ⟨new, u, moved, taken⟩ :=
        (items _ (first.whole whole) (Nat.le_refl _) trivial read).moved
      obtain ⟨new', us, moved', copies, counted⟩ := ih (moved.whole (first.whole whole))
      refine ⟨_, u :: us, (first.trans moved).trans moved', .cons taken.toCopy copies (by simp), ?_⟩
      have := taken.used
      simp only [List.length_cons, Trace.used_followedBy]
      omega

omit items in
/-- Behind what is passed over there is a place in the whole from which it goes on as it would have
before. -/
theorem meets_drop (p : Token → Bool) (stays : p .finish = false) (meets : s.Meets c d) :
    ∃ d', s.Meets (c.drop p) d' ∧ d'.drop p = d.drop p := by
  by_cases atEnd : (c.drop p).IsOver
  · obtain ⟨before, same, none, same'⟩ := meets.tokens
    have passed : before.dropWhile p = [] := by
      rw [Cursor.IsOver, ← Cursor.tokens_length, Cursor.tokens_drop, same, List.dropWhile_append]
        at atEnd
      cases left : before.dropWhile p with
      | nil => rfl
      | cons t more => simp [left] at atEnd
    have all : ∀ t ∈ before, p t = true := List.dropWhile_eq_nil_iff.mp passed
    refine ⟨{ d with rest := d.rest.drop before.length }, ⟨⟨[], ?_, List.not_mem_nil, ?_⟩,
      meets.brackets, meets.names, meets.serial, meets.start⟩, ?_⟩
    · rw [Cursor.tokens_drop, same, List.dropWhile_append, passed]
      simp [stays]
    · change (d.rest.drop before.length).map Placed.token = _
      rw [List.map_drop, show d.rest.map Placed.token = _ from same', List.drop_left,
        List.nil_append]
    · have front : ∀ t ∈ d.rest.take before.length, p t.token = true := fun t mem => all _ (by
        have shown : (d.rest.take before.length).map Placed.token = before := by
          rw [List.map_take, show d.rest.map Placed.token = _ from same', List.take_left]
        rw [← shown]
        exact List.mem_map_of_mem mem)
      have whole : d.rest.dropWhile (fun t => p t.token) =
          (d.rest.drop before.length).dropWhile fun t => p t.token := by
        conv_lhs => rw [← List.take_append_drop before.length d.rest]
        exact List.dropWhile_append_of_pos front
      rw [Cursor.drop, Cursor.drop, whole]
  · refine ⟨d.drop p, meets.drop stays fun atEnd' => absurd atEnd' atEnd, ?_⟩
    simp only [Cursor.drop, List.dropWhile_idempotent]

theorem leads (h : Lists layout item c ts c') (meets : s.Meets c d) (below : c'.serial ≤ s.limit)
    (more : ¬ c'.IsOver ∨ ¬ c.IsInside ∧ layout.follows s.head = true) :
    ∃ new us d', Leads s layout item' ts c c' d new us d' := by
  have stays := layout.stays _ layout.finish_closes
  induction h generalizing d with
  | @done c closes =>
      obtain ⟨d', meets', same⟩ := meets_drop layout.separates stays meets
      exact ⟨_, [], d', .drop meets.whole stays, .nil rfl, Nat.le_refl _, meets',
        fun rest => rest.of_drop same.symm⟩
  | @item c c₂ c' t ts opens read follows rest ih =>
      have first := Cursor.Moved.drop meets.whole stays
      have whole₁ := first.whole meets.whole
      have inner : ¬ (c.drop layout.separates).IsOver := fun atEnd => by
        rw [whole₁.over_iff.mp atEnd, layout.finish_closes] at opens
        exact nomatch opens
      have meets₁ := meets.drop (d := d) stays fun atEnd => absurd atEnd inner
      have joins := items _ whole₁ (Nat.le_refl _) trivial read
      obtain ⟨new, u, moved, taken⟩ := joins.moved
      obtain ⟨new', us, moved', -, -⟩ := rest.moved items (moved.whole whole₁)
      have outside : c₂.IsOver → ¬ c₂.IsInside ∧ layout.follows s.head = true := fun atEnd =>
        more.elim (fun open_ => absurd (moved'.isOver atEnd) open_) fun edge =>
          ⟨fun inside => edge.1 ((first.trans moved).inside.mp inside), edge.2⟩
      rcases joins.joined _ meets₁ (Nat.le_trans moved'.serial below) with
        ⟨-, -, atEnd, inside⟩ | ⟨new, u, d₂, moved, read', meets₂, taken⟩
      · exact absurd inside (outside atEnd).1
      · have more' : ¬ c'.IsOver ∨ ¬ c₂.IsInside ∧ layout.follows s.head = true :=
          more.imp_right fun edge =>
            ⟨fun inside => edge.1 ((first.trans moved).inside.mp inside), edge.2⟩
        obtain ⟨new', us, d', rest⟩ := ih meets₂ below more'
        have opens' : layout.closes (d.drop layout.separates).next.token = false := by
          rw [meets₁.next inner]
          exact opens
        have follows' : layout.follows d₂.next.token = true := by
          by_cases atEnd : c₂.IsOver
          · rw [meets₂.next_over atEnd]
            exact (outside atEnd).2
          · rw [meets₂.next atEnd]
            exact follows
        refine ⟨_, u :: us, d', (first.trans moved).trans rest.moved,
          .cons taken.toCopy rest.copies (by simp), ?_, rest.meets,
          fun further => .item opens' read' follows' (rest.goes_on further)⟩
        have := taken.used
        have := rest.counted
        simp only [List.length_cons, Trace.used_followedBy]
        omega

end Lists

end PeerScript.Script
