import PeerScript.Proofs.Messages.Names
import PeerScript.Proofs.Reading

/-!
# A text that is read as a part of another one

A text can be read alone, or as a part of a text made of several.  A `Seam` says what is different
then: something else stands where the text has its end, some names are bound by the script itself
that are bound outside of it when it is read alone, and instances get other numbers.

Two cursors at the same place of the text meet.  They are moved together, with one exception: inside
of brackets and bodies a line end may mean nothing, so the cursor of the text alone may be at its
end where the other one goes on.  It is doomed then, as what is open will never be closed.
-/

set_option autoImplicit false

namespace PeerScript.Script

open Text (Position)

/-! ## Cursors -/

/-- What a parser has done: the names it has bound, last one first, and the least number of tokens
that it has used up. -/
structure Trace where
  names : List String
  used : Nat

namespace Trace

/-- Nothing. -/
def nothing : Trace := ⟨[], 0⟩

/-- One token. -/
def token : Trace := ⟨[], 1⟩

/-- One after the other. -/
def followedBy (first second : Trace) : Trace :=
  ⟨second.names ++ first.names, first.used + second.used⟩

@[simp] theorem names_nothing : nothing.names = [] := rfl

@[simp] theorem used_nothing : nothing.used = 0 := rfl

@[simp] theorem names_token : token.names = [] := rfl

@[simp] theorem used_token : token.used = 1 := rfl

@[simp] theorem names_followedBy (first second : Trace) :
    (first.followedBy second).names = second.names ++ first.names := rfl

@[simp] theorem used_followedBy (first second : Trace) :
    (first.followedBy second).used = first.used + second.used := rfl

@[simp] theorem followedBy_nothing (first : Trace) : first.followedBy nothing = first := rfl

theorem followedBy_assoc (first second third : Trace) :
    (first.followedBy second).followedBy third = first.followedBy (second.followedBy third) := by
  simp only [followedBy, List.append_assoc, Nat.add_assoc]

end Trace

namespace Cursor

/-- The tokens end with the end of the script, and it stands nowhere else. -/
structure IsWhole (c : Cursor) : Prop where
  tokens : ∃ before, c.tokens = before ++ [.finish] ∧ .finish ∉ before
  names : c.names ≠ []

/-- Nothing but the end of the text is left. -/
def IsOver (c : Cursor) : Prop := c.rest.length = 1

/-- Inside of brackets or of a body. -/
def IsInside (c : Cursor) : Prop := 0 < c.brackets ∨ 1 < c.names.length

/-- The next token that counts. -/
def IsAt (t : Token) (c : Cursor) : Prop := c.settled.next.token = t

/-- A parser has moved the cursor: it has left the brackets and the bodies that it has opened. -/
structure Moved (c : Cursor) (new : Trace) (c' : Cursor) : Prop where
  rest : c'.rest <:+ c.rest
  there : c'.rest ≠ []
  used : c'.rest.length + new.used ≤ c.rest.length
  brackets : c'.brackets = c.brackets
  names : c'.names = c.names.modifyHead (new.names ++ ·)
  serial : c.serial ≤ c'.serial

variable {c c' c'' : Cursor} {new new' : Trace} {p : Token → Bool}

theorem drop_suffix (p : Token → Bool) (c : Cursor) : (c.drop p).rest <:+ c.rest :=
  List.dropWhile_suffix _

theorem IsWhole.there (h : c.IsWhole) : c.rest ≠ [] := by
  obtain ⟨before, same, -⟩ := h.tokens
  intro empty
  rw [Cursor.tokens, empty] at same
  simp at same

/-- A text is over where its end is the next token. -/
theorem IsWhole.over_iff (h : c.IsWhole) : c.IsOver ↔ c.next.token = .finish := by
  obtain ⟨before, same, none⟩ := h.tokens
  rw [IsOver, ← c.tokens_length, next_token, same]
  cases before with
  | nil => simp
  | cons t before => simpa using fun last : t = .finish => none (last ▸ List.mem_cons_self)

theorem drop_ne_nil (h : c.IsWhole) (stays : p .finish = false) : (c.drop p).rest ≠ [] := by
  obtain ⟨before, same, -⟩ := h.tokens
  intro empty
  have nothing : (c.drop p).tokens = [] := by rw [tokens, empty]; rfl
  rw [tokens_drop, List.dropWhile_eq_nil_iff] at nothing
  have passed := nothing .finish (by simp [same])
  rw [stays] at passed
  cases passed

namespace Moved

theorem refl (h : c.IsWhole) : c.Moved .nothing c where
  rest := List.suffix_rfl
  there := h.there
  used := Nat.le_refl _
  brackets := rfl
  names := by cases c.names <;> rfl
  serial := Nat.le_refl _

theorem trans (h : c.Moved new c') (k : c'.Moved new' c'') :
    c.Moved (new.followedBy new') c'' where
  rest := k.rest.trans h.rest
  there := k.there
  used := by
    have := h.used
    have := k.used
    simp only [Trace.used_followedBy]
    omega
  brackets := k.brackets.trans h.brackets
  names := by
    rw [k.names, h.names]
    cases c.names <;> simp
  serial := Nat.le_trans h.serial k.serial

theorem whole (h : c.Moved new c') (whole : c.IsWhole) : c'.IsWhole where
  tokens := by
    obtain ⟨before, same, none⟩ := whole.tokens
    obtain ⟨gone, split⟩ := h.rest
    rw [Cursor.tokens, ← split, List.map_append] at same
    obtain ⟨last, shown⟩ : ∃ last, c'.rest.map Placed.token = last ++ [.finish] := by
      rcases List.eq_nil_or_concat (c'.rest.map Placed.token) with empty | ⟨last, t, shown⟩
      · exact absurd (List.map_eq_nil_iff.mp empty) h.there
      · rw [shown, List.concat_eq_append, ← List.append_assoc] at same
        obtain ⟨-, same⟩ := List.append_inj' same rfl
        cases same
        exact ⟨last, by rw [shown, List.concat_eq_append]⟩
    refine ⟨last, shown, fun mem => none ?_⟩
    rw [shown, ← List.append_assoc] at same
    rw [← (List.append_inj' same rfl).1]
    exact List.mem_append_right _ mem
  names := by
    rw [h.names]
    cases known : c.names with
    | nil => exact absurd known whole.names
    | cons innermost outer => exact List.cons_ne_nil _ _

theorem length_names (h : c.Moved new c') : c'.names.length = c.names.length := by
  rw [h.names]
  cases c.names <;> rfl

/-- At its end a cursor stays where it is. -/
theorem isOver (h : c.Moved new c') (atEnd : c.IsOver) : c'.IsOver := by
  have less := h.used
  have some := List.length_pos_iff.mpr h.there
  unfold IsOver at atEnd ⊢
  omega

theorem not_over (h : c.Moved new c') (used : 0 < new.used) : ¬ c.IsOver := by
  intro atEnd
  have less := h.used
  have some := List.length_pos_iff.mpr h.there
  unfold IsOver at atEnd
  omega

theorem inside (h : c.Moved new c') : c'.IsInside ↔ c.IsInside := by
  rw [IsInside, IsInside, h.brackets, h.length_names]

theorem drop (h : c.IsWhole) (stays : p .finish = false) : c.Moved .nothing (c.drop p) where
  rest := drop_suffix p c
  there := drop_ne_nil h stays
  used := (drop_suffix p c).length_le
  brackets := rfl
  names := (refl h).names
  serial := Nat.le_refl _

theorem settled (h : c.IsWhole) : c.Moved .nothing c.settled := by
  unfold Cursor.settled
  split
  · exact drop h rfl
  · exact refl h

theorem behind (h : c.IsWhole) (more : ¬ c.IsOver) : c.Moved .token c.behind := by
  have same : c.names = c.names.modifyHead (Trace.token.names ++ ·) := (refl h).names
  have there := h.there
  rcases shape : c.rest with _ | ⟨first, _ | ⟨second, rest⟩⟩
  · exact absurd shape there
  · exact absurd (by rw [IsOver, shape]; rfl) more
  · have moved : c.behind = { c with rest := second :: rest } := by rw [Cursor.behind, shape]
    rw [moved]
    exact ⟨by rw [shape]; exact List.suffix_cons _ _, List.cons_ne_nil _ _,
      by rw [shape]; exact Nat.le_refl _, rfl, same, Nat.le_refl _⟩

/-- What has been read inside of a body. -/
theorem left (h : c.entered.Moved new c') (whole : c.IsWhole) : c.Moved ⟨[], new.used⟩ c'.left where
  rest := h.rest
  there := h.there
  used := h.used
  brackets := h.brackets
  names := by
    have there := List.length_pos_iff.mpr whole.names
    have names : c'.names = (new.names ++ []) :: c.names := h.names
    change (if 1 < c'.names.length then c'.names.tail else c'.names) = _
    rw [names, if_pos (by simpa using there)]
    exact (refl whole).names
  serial := h.serial

end Moved

theorem tokens_behind (h : 1 < c.rest.length) : c.behind.tokens = c.tokens.tail := by
  rcases shape : c.rest with _ | ⟨first, _ | ⟨second, rest⟩⟩
  · simp [shape] at h
  · simp [shape] at h
  · simp [behind, tokens, shape]

end Cursor

/-! ## Seams -/

/-- What is different when a text is read as a part of a whole. -/
structure Seam where
  /-- what stands in the whole instead of the end of the text -/
  edge : List Token
  /-- whether line ends count, and one stands there -/
  isSharp : Bool
  /-- the names that the script has bound before, which are bound outside when the text is read
  alone -/
  base : List String
  /-- what else is bound outside, and the registered types -/
  alone : Context
  joint : Context
  /-- the numbers of the instances in the whole, and those for which they are known -/
  numbers : Nat → Nat
  start : Nat
  limit : Nat
  shift : Nat
  edge_ne : edge ≠ []
  not_newline : isSharp = false → edge.headD .finish ≠ .newline
  bound : ∀ name, alone.isBound name = (base.contains name || joint.isBound name)
  registry : joint.registry = alone.registry
  uniform : alone.registry.IsUniform
  injective : numbers.Injective
  window : ∀ n, start ≤ n → n < limit → numbers n + shift = n

namespace Seam

variable (s : Seam)

/-- The token that stands in the whole where the text has its end. -/
def head : Token := s.edge.headD .finish

/-- Two cursors at the same place, in the text alone and in the whole. -/
structure Meets (c d : Cursor) : Prop where
  tokens : ∃ before, c.tokens = before ++ [.finish] ∧ .finish ∉ before ∧ d.tokens = before ++ s.edge
  brackets : d.brackets = c.brackets
  names : ∃ outer last, c.names = outer ++ [last] ∧ d.names = outer ++ [last ++ s.base]
  serial : c.serial = d.serial + s.shift
  start : s.start ≤ c.serial

/-- The text is over, but something is still open that a line end could be inside of. -/
def Doomed (c : Cursor) : Prop := s.isSharp = true ∧ c.IsOver ∧ c.IsInside

variable {s} {c c' d : Cursor} {new : Trace} {p : Token → Bool}

theorem Doomed.moved (h : s.Doomed c) (moved : c.Moved new c') : s.Doomed c' :=
  ⟨h.1, moved.isOver h.2.1, moved.inside.mpr h.2.2⟩

namespace Meets

theorem whole (h : s.Meets c d) : c.IsWhole := by
  obtain ⟨before, same, none, -⟩ := h.tokens
  obtain ⟨outer, last, names, -⟩ := h.names
  exact ⟨⟨before, same, none⟩, by simp [names]⟩

/-- In the whole there are at least as many tokens. -/
theorem length_le (h : s.Meets c d) : c.rest.length ≤ d.rest.length := by
  obtain ⟨before, same, -, same'⟩ := h.tokens
  have some := List.length_pos_iff.mpr s.edge_ne
  rw [← c.tokens_length, ← d.tokens_length, same, same', List.length_append, List.length_append]
  exact Nat.add_le_add_left some _

/-- Where the text is not over, the next token is the same. -/
theorem next (h : s.Meets c d) (more : ¬ c.IsOver) : d.next.token = c.next.token := by
  obtain ⟨before, same, none, same'⟩ := h.tokens
  cases before with
  | nil =>
      rw [Cursor.IsOver, ← c.tokens_length, same] at more
      exact absurd rfl more
  | cons t before => rw [d.next_token, c.next_token, same, same']; rfl

/-- Where the text is over, what comes next is the edge. -/
theorem edge (h : s.Meets c d) (atEnd : c.IsOver) : d.tokens = s.edge := by
  obtain ⟨before, same, none, same'⟩ := h.tokens
  rw [Cursor.IsOver, ← c.tokens_length, same, List.length_append] at atEnd
  have empty : before = [] := List.eq_nil_of_length_eq_zero (Nat.succ.inj atEnd)
  rw [same', empty, List.nil_append]

theorem next_over (h : s.Meets c d) (atEnd : c.IsOver) : d.next.token = s.head := by
  rw [d.next_token, h.edge atEnd, head]

theorem behind (h : s.Meets c d) (more : ¬ c.IsOver) : s.Meets c.behind d.behind := by
  obtain ⟨before, same, none, same'⟩ := h.tokens
  have some := List.length_pos_iff.mpr h.whole.there
  have lt : 1 < c.rest.length := Nat.lt_of_le_of_ne some fun one => more one.symm
  have lt' := Nat.lt_of_lt_of_le lt h.length_le
  refine ⟨?_, by simp [h.brackets], by simpa using h.names, by simpa using h.serial,
    by simpa using h.start⟩
  cases before with
  | nil =>
      rw [Cursor.IsOver, ← c.tokens_length, same] at more
      exact absurd rfl more
  | cons t before =>
      exact ⟨before, by rw [Cursor.tokens_behind lt, same]; rfl,
        fun mem => none (List.mem_cons_of_mem _ mem), by rw [Cursor.tokens_behind lt', same']; rfl⟩

/-- Both pass over the same tokens if the one of the text alone finds one to stop at, or if the
other stops at the edge. -/
theorem drop (h : s.Meets c d) (stays : p .finish = false)
    (stops : (c.drop p).IsOver → p s.head = false) : s.Meets (c.drop p) (d.drop p) := by
  obtain ⟨before, same, none, same'⟩ := h.tokens
  refine ⟨⟨before.dropWhile p, ?_, fun mem => none ((List.dropWhile_sublist _).mem mem), ?_⟩,
    h.brackets, h.names, h.serial, h.start⟩
  · rw [Cursor.tokens_drop, same, List.dropWhile_append]
    cases left : before.dropWhile p <;> simp [stays]
  · rw [Cursor.tokens_drop, same', List.dropWhile_append]
    cases left : before.dropWhile p with
    | cons t left => rfl
    | nil =>
        have atEnd : (c.drop p).IsOver := by
          rw [Cursor.IsOver, ← Cursor.tokens_length, Cursor.tokens_drop, same,
            List.dropWhile_append, left]
          simp [stays]
        have stop := stops atEnd
        rw [head] at stop
        cases known : s.edge with
        | nil => exact absurd known s.edge_ne
        | cons t more =>
            rw [known] at stop
            simp [show p t = false from stop]

/-- Cursors that meet still do when line ends have been passed over, unless the text is over inside
of brackets and a line end stands at the edge. -/
theorem settled (h : s.Meets c d) : s.Doomed c.settled ∨ s.Meets c.settled d.settled := by
  by_cases inside : 0 < c.brackets
  · have left : c.settled = c.drop Token.isNewline := if_pos inside
    have right : d.settled = d.drop Token.isNewline := if_pos (h.brackets ▸ inside)
    rw [left, right]
    by_cases doomed : s.Doomed (c.drop Token.isNewline)
    · exact .inl doomed
    · refine .inr (h.drop rfl fun atEnd => ?_)
      cases sharp : s.isSharp with
      | true => exact absurd ⟨sharp, atEnd, .inl inside⟩ doomed
      | false =>
          have other : s.head ≠ .newline := s.not_newline sharp
          revert other
          cases s.head <;> simp [Token.isNewline]
  · have left : c.settled = c := if_neg inside
    have right : d.settled = d := if_neg (h.brackets ▸ inside)
    rw [left, right]
    exact .inr h

theorem withBrackets (h : s.Meets c d) (brackets : Nat) :
    s.Meets (c.withBrackets brackets) (d.withBrackets brackets) :=
  ⟨h.tokens, rfl, h.names, h.serial, h.start⟩

theorem entered (h : s.Meets c d) : s.Meets c.entered d.entered := by
  obtain ⟨outer, last, names, names'⟩ := h.names
  refine ⟨h.tokens, h.brackets, ⟨[] :: outer, last, ?_, ?_⟩, h.serial, h.start⟩
  · simp [Cursor.entered, Cursor.withNames, names]
  · simp [Cursor.entered, Cursor.withNames, names']

theorem left (h : s.Meets c d) (inside : 1 < c.names.length) : s.Meets c.left d.left := by
  obtain ⟨outer, last, names, names'⟩ := h.names
  refine ⟨h.tokens, h.brackets, ?_, h.serial, h.start⟩
  cases outer with
  | nil =>
      rw [names] at inside
      exact absurd inside (Nat.lt_irrefl 1)
  | cons innermost outer =>
      exact ⟨outer, last, by simp [leave, Cursor.left, Cursor.withNames, names],
        by simp [leave, Cursor.left, Cursor.withNames, names']⟩

/-- A name is in view for both or for neither. -/
theorem sees (h : s.Meets c d) (name : String) :
    (c.names.any (·.contains name) || s.alone.isBound name) =
      (d.names.any (·.contains name) || s.joint.isBound name) := by
  obtain ⟨outer, last, names, names'⟩ := h.names
  rw [names, names', s.bound]
  simp [List.contains_eq_mem, Bool.or_assoc]

end Meets

end Seam

end PeerScript.Script
