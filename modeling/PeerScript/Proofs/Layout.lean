import PeerScript.Proofs.Cursors
import PeerScript.Script.Rho

/-!
# Scripts that differ in their layout

Directly inside of parentheses and square brackets line ends mean nothing; elsewhere they separate
statements, as semicolons do, and one separator is as good as several.  The `outline` of a script is
what is left of it without these differences.

Two cursors are `Similar` if the scripts in front of them have one outline.  `Tracks` says that a
reader reads in front of the one cursor what another reader reads in front of the other, and that
the cursors are related again behind it.  There is one law for each primitive reader, and one for a
reader behind another one.
-/

set_option autoImplicit false

namespace PeerScript.Script

open Script.Parser

/-! ## Outlines -/

/-- The delimiters that are open behind a token, innermost first: a delimiter that closes one closes
the innermost of them. -/
def Token.opened (stack : List Symbol) : Token → List Symbol
  | .symbol .lParen => .lParen :: stack
  | .symbol .lBracket => .lBracket :: stack
  | .symbol .lBrace => .lBrace :: stack
  | .symbol .rParen | .symbol .rBracket | .symbol .rBrace => stack.tail
  | _ => stack

/-- Whether line ends mean nothing directly inside of the innermost of the open delimiters. -/
def isLoose : List Symbol → Bool
  | .lParen :: _ | .lBracket :: _ => true
  | _ => false

/-- Whether a token separates statements. -/
def Token.separates : Token → Bool
  | .newline | .symbol .semi => true
  | _ => false

/-- The tokens without line ends where they mean nothing, and with one line end for all separators
that follow each other. -/
def outline : List Symbol → List Token → List Token
  | _, [] => []
  | stack, t :: rest =>
      if isLoose stack then
        if t.isNewline then outline stack rest else t :: outline (t.opened stack) rest
      else if t.separates then .newline :: (outline stack rest).dropWhile Token.separates
      else t :: outline (t.opened stack) rest

section Outlines

variable {stack : List Symbol} {t u : Token} {ts us : List Token}

theorem outline_newline (loose : isLoose stack = true) (ends : t.isNewline = true) :
    outline stack (t :: ts) = outline stack ts := by
  rw [outline, if_pos loose, if_pos ends]

theorem outline_separator (strict : isLoose stack = false) (separates : t.separates = true) :
    outline stack (t :: ts) = .newline :: (outline stack ts).dropWhile Token.separates := by
  rw [outline, if_neg (by simp [strict]), if_pos separates]

theorem outline_loose (loose : isLoose stack = true) (counts : t.isNewline = false) :
    outline stack (t :: ts) = t :: outline (t.opened stack) ts := by
  rw [outline, if_pos loose, if_neg (by simp [counts])]

theorem outline_strict (strict : isLoose stack = false) (counts : t.separates = false) :
    outline stack (t :: ts) = t :: outline (t.opened stack) ts := by
  rw [outline, if_neg (by simp [strict]), if_neg (by simp [counts])]

theorem separates_of_isNewline (ends : t.isNewline = true) : t.separates = true := by
  cases t <;> first | rfl | exact nomatch ends

theorem outline_dropWhile_newlines (loose : isLoose stack = true) (ts : List Token) :
    outline stack (ts.dropWhile Token.isNewline) = outline stack ts := by
  induction ts with
  | nil => rfl
  | cons t ts ih =>
      cases ends : t.isNewline with
      | true => rw [List.dropWhile_cons_of_pos ends, ih, outline_newline loose ends]
      | false => rw [List.dropWhile_cons_of_neg (by simp [ends])]

theorem outline_dropWhile_separators (strict : isLoose stack = false) (ts : List Token) :
    outline stack (ts.dropWhile Token.separates) =
      (outline stack ts).dropWhile Token.separates := by
  induction ts with
  | nil => rfl
  | cons t ts ih =>
      cases separates : t.separates with
      | true =>
          rw [List.dropWhile_cons_of_pos separates, ih, outline_separator strict separates,
            List.dropWhile_cons_of_pos (show Token.separates .newline = true from rfl),
            List.dropWhile_idempotent]
      | false =>
          rw [List.dropWhile_cons_of_neg (by simp [separates]), outline_strict strict separates,
            List.dropWhile_cons_of_neg (by simp [separates])]

/-- Two lists of tokens with one outline begin with separators that count, or with one token that is
no such separator. -/
inductive Fronts (stack : List Symbol) : List Token → List Token → Prop
  | separators {t u : Token} {ts us : List Token} : isLoose stack = false → t.separates = true →
    u.separates = true →
      Fronts stack (t :: ts) (u :: us)
  | token {t : Token} {ts us : List Token} : (isLoose stack = false → t.separates = false) →
      outline (t.opened stack) ts = outline (t.opened stack) us → Fronts stack (t :: ts) (t :: us)

theorem fronts_of_outline (same : outline stack (t :: ts) = outline stack (u :: us))
    (left : isLoose stack = true → t.isNewline = false)
    (right : isLoose stack = true → u.isNewline = false) :
    Fronts stack (t :: ts) (u :: us) := by
  cases loose : isLoose stack with
  | true =>
      rw [outline_loose loose (left loose), outline_loose loose (right loose)] at same
      obtain ⟨rfl, same⟩ := List.cons.inj same
      exact .token (fun strict => nomatch loose.symm.trans strict) same
  | false =>
      cases separates : t.separates <;> cases separates' : u.separates
      · rw [outline_strict loose separates, outline_strict loose separates'] at same
        obtain ⟨rfl, same⟩ := List.cons.inj same
        exact .token (fun _ => separates) same
      · rw [outline_strict loose separates, outline_separator loose separates'] at same
        obtain ⟨rfl, -⟩ := List.cons.inj same
        exact nomatch separates
      · rw [outline_separator loose separates, outline_strict loose separates'] at same
        obtain ⟨rfl, -⟩ := List.cons.inj same
        exact nomatch separates'
      · exact .separators loose separates separates'

end Outlines

/-! ## Similar cursors -/

/-- Whether the end of the script is among the tokens. -/
def AreWhole (ts : List Token) : Prop := .finish ∈ ts

theorem AreWhole.ne_nil {ts : List Token} (h : AreWhole ts) : ts ≠ [] := List.ne_nil_of_mem h

theorem AreWhole.tail {t : Token} {ts : List Token} (h : AreWhole (t :: ts))
    (goesOn : t ≠ .finish) :
    AreWhole ts :=
  (List.mem_cons.mp h).resolve_left fun last => goesOn last.symm

theorem AreWhole.dropWhile {ts : List Token} (h : AreWhole ts) {p : Token → Bool}
    (stays : p .finish = false) :
    AreWhole (ts.dropWhile p) := by
  induction ts with
  | nil => exact h
  | cons t ts ih =>
      cases passes : p t with
      | true =>
          rw [List.dropWhile_cons_of_pos passes]
          exact ih (h.tail fun last => by rw [last, stays] at passes; exact nomatch passes)
      | false =>
          rw [List.dropWhile_cons_of_neg (by simp [passes])]
          exact h

/-- Where the cursors are: the delimiters that are open, in how many of these line ends do not
count, and upper bounds for the numbers of tokens that follow. -/
structure Whereabouts where
  stack : List Symbol
  brackets : Nat
  room : Nat
  room' : Nat

namespace Whereabouts

/-- Line ends are passed over where they mean nothing. -/
def Fits (w : Whereabouts) : Prop := 0 < w.brackets ↔ isLoose w.stack = true

/-- The same with at least one token less. -/
def spend (w : Whereabouts) : Whereabouts := { w with room := w.room - 1, room' := w.room' - 1 }

/-- Behind a token. -/
def behind (w : Whereabouts) (t : Token) : Whereabouts := { w.spend with stack := t.opened w.stack }

/-- The same with other bounds. -/
def within (w : Whereabouts) (room room' : Nat) : Whereabouts :=
  { w with room := room, room' := room' }

end Whereabouts

/-- Cursors with the same names in view, in front of tokens with one outline. -/
structure Similar (w : Whereabouts) (c d : Cursor) : Prop where
  same : outline w.stack c.tokens = outline w.stack d.tokens
  left : c.brackets = w.brackets
  right : d.brackets = w.brackets
  names : c.names = d.names
  serial : c.serial = d.serial
  whole : AreWhole c.tokens
  whole' : AreWhole d.tokens
  room : c.rest.length ≤ w.room
  room' : d.rest.length ≤ w.room'

/-- What a reader may see in front of similar cursors: the same token, or separators. -/
def Alike (t u : Token) : Prop := t = u ∨ t.separates = true ∧ u.separates = true

/-- Similar cursors that see the given tokens next. -/
structure Meets (w : Whereabouts) (t u : Token) (c d : Cursor) : Prop extends Similar w c d where
  front : c.next.token = t
  front' : d.next.token = u
  alike : Alike t u
  settled : c.settled = c
  settled' : d.settled = d

namespace Similar

variable {w : Whereabouts} {c d : Cursor} (h : Similar w c d)

include h

theorem widen {w' : Whereabouts} (stack : w.stack = w'.stack) (brackets : w.brackets = w'.brackets)
    (room : w.room ≤ w'.room) (room' : w.room' ≤ w'.room') : Similar w' c d :=
  ⟨stack ▸ h.same, brackets ▸ h.left, brackets ▸ h.right, h.names, h.serial, h.whole, h.whole',
    Nat.le_trans h.room room, Nat.le_trans h.room' room'⟩

theorem room_pos : 0 < w.room ∧ 0 < w.room' := by
  have some := List.length_pos_iff.mpr h.whole.ne_nil
  have some' := List.length_pos_iff.mpr h.whole'.ne_nil
  rw [Cursor.tokens_length] at some some'
  exact ⟨Nat.lt_of_lt_of_le some h.room, Nat.lt_of_lt_of_le some' h.room'⟩

/-- To open or close brackets. -/
theorem rebracket (brackets : Nat) :
    Similar { w with brackets := brackets } { c with brackets := brackets }
      { d with brackets := brackets } :=
  ⟨h.same, rfl, rfl, h.names, h.serial, h.whole, h.whole', h.room, h.room'⟩

/-- To change the names in view. -/
theorem rename (change : List (List String) → List (List String)) :
    Similar w (c.withNames (change c.names)) (d.withNames (change d.names)) :=
  ⟨h.same, h.left, h.right, congrArg change h.names, h.serial, h.whole, h.whole', h.room, h.room'⟩

theorem settle (fits : w.Fits) : Similar w c.settled d.settled := by
  have passed : ∀ {c : Cursor}, c.brackets = w.brackets → AreWhole c.tokens →
      outline w.stack c.settled.tokens = outline w.stack c.tokens ∧
      c.settled.brackets = w.brackets ∧
        AreWhole c.settled.tokens := by
    intro c count whole
    unfold Cursor.settled
    split
    · rename_i inside
      have loose := fits.mp (count ▸ inside)
      rw [c.tokens_drop]
      exact ⟨outline_dropWhile_newlines loose _, count, whole.dropWhile rfl⟩
    · exact ⟨rfl, count, whole⟩
  obtain ⟨same, count, whole⟩ := passed h.left h.whole
  obtain ⟨same', count', whole'⟩ := passed h.right h.whole'
  have less : ∀ c : Cursor, c.settled.rest.length ≤ c.rest.length := by
    intro c
    unfold Cursor.settled
    split
    · exact (List.dropWhile_suffix _).length_le
    · exact Nat.le_refl _
  exact ⟨same.trans (h.same.trans same'.symm), count, count', by simpa using h.names,
    by simpa using h.serial,
    whole, whole', Nat.le_trans (less c) h.room, Nat.le_trans (less d) h.room'⟩

/-- What similar cursors see next. -/
theorem meets (fits : w.Fits) :
    Meets w c.settled.next.token d.settled.next.token c.settled d.settled := by
  have settled := h.settle fits
  have counts : ∀ {c : Cursor} {t : Token} {ts : List Token}, c.brackets = w.brackets →
      c.settled.tokens = t :: ts → isLoose w.stack = true → t.isNewline = false := by
    intro c t ts count shape loose
    rw [Cursor.settled, if_pos (count ▸ fits.mpr loose), c.tokens_drop] at shape
    have first := List.head?_dropWhile_not Token.isNewline c.tokens
    rw [shape] at first
    exact first
  refine { settled with front := rfl, front' := rfl, alike := ?_, settled := c.settled_settled,
                        settled' := d.settled_settled }
  rw [Cursor.next_token, Cursor.next_token]
  obtain ⟨t, ts, shape⟩ := List.exists_cons_of_ne_nil settled.whole.ne_nil
  obtain ⟨u, us, shape'⟩ := List.exists_cons_of_ne_nil settled.whole'.ne_nil
  have same := settled.same
  rw [shape, shape'] at same ⊢
  cases fronts_of_outline same (counts h.left shape) (counts h.right shape') with
  | separators _ separates separates' => exact .inr ⟨separates, separates'⟩
  | token => exact .inl rfl

end Similar

/-- Whether a token is neither a separator nor the end of the script. -/
def Token.isSolid : Token → Bool
  | .newline | .symbol .semi | .finish => false
  | _ => true

theorem not_separates_of_isSolid {t : Token} (solid : t.isSolid = true) : t.separates = false := by
  cases t with
  | symbol mark => cases mark <;> first | rfl | exact nomatch solid
  | _ => first | rfl | exact nomatch solid

theorem Alike.eq_of_isSolid {t u : Token} (alike : Alike t u) (solid : t.isSolid = true) :
    u = t := by
  rcases alike with same | ⟨separates, -⟩
  · exact same.symm
  · exact nomatch (not_separates_of_isSolid solid).symm.trans separates

/-- Tokens that look alike are separators and ends of the script at the same places. -/
theorem Alike.isSolid_eq {t u : Token} (alike : Alike t u) : u.isSolid = t.isSolid := by
  rcases alike with same | ⟨separates, separates'⟩
  · rw [same]
  · have hollow : ∀ {t : Token}, t.separates = true → t.isSolid = false := by
      intro t separates
      cases solid : t.isSolid with
      | false => rfl
      | true => exact nomatch (not_separates_of_isSolid solid).symm.trans separates
    rw [hollow separates, hollow separates']

theorem Alike.eq_of_isSolid' {t u : Token} (alike : Alike t u) (solid : u.isSolid = true) :
    t = u := by
  rcases alike with same | ⟨-, separates⟩
  · exact same
  · exact nomatch (not_separates_of_isSolid solid).symm.trans separates

/-- The end of the script is at the same place. -/
theorem Meets.finish_iff {w : Whereabouts} {t u : Token} {c d : Cursor} (h : Meets w t u c d) :
    t = .finish ↔ u = .finish := by
  rcases h.alike with same | ⟨separates, separates'⟩
  · rw [same]
  · constructor <;> rintro rfl
    · exact nomatch separates
    · exact nomatch separates'

theorem ne_finish_of_isSolid {t : Token} (solid : t.isSolid = true) : t ≠ .finish := by
  rintro rfl
  exact nomatch solid

/-- Behind a token that is not the end of the script there is another one. -/
theorem AreWhole.behind {c : Cursor} {t : Token} (whole : AreWhole c.tokens)
    (front : c.next.token = t) (goesOn : t ≠ .finish) :
    c.tokens = t :: c.behind.tokens ∧ AreWhole c.behind.tokens ∧
    c.behind.rest.length + 1 = c.rest.length ∧
      (c.rest.drop 1).head?.map Placed.token = some c.behind.next.token := by
  obtain ⟨u, us, shape⟩ := List.exists_cons_of_ne_nil whole.ne_nil
  have first : u = t := by
    rw [Cursor.next_token, shape] at front
    exact front
  subst first
  have rest := (shape ▸ whole : AreWhole (u :: us)).tail goesOn
  obtain ⟨p, ps, cut, -, shape'⟩ := List.map_eq_cons_iff.mp shape
  obtain ⟨q, qs, rfl⟩ : ∃ q qs, ps = q :: qs := by
    refine List.exists_cons_of_ne_nil fun empty => rest.ne_nil ?_
    rw [← shape', empty]
    rfl
  have behind : c.behind = { c with rest := q :: qs } := by
    unfold Cursor.behind
    rw [cut]
  have tokens : c.behind.tokens = us := by
    rw [behind, ← shape']
    rfl
  rw [tokens]
  refine ⟨shape, rest, ?_, ?_⟩ <;> rw [behind, cut] <;> rfl

/-- A token that is neither a separator nor the end is taken in front of both cursors. -/
theorem Meets.taken {w : Whereabouts} {t u : Token} {c d : Cursor} (h : Meets w t u c d)
    (solid : t.isSolid = true) : u = t ∧ Similar (w.behind t) c.behind d.behind := by
  have same := h.alike.eq_of_isSolid solid
  subst same
  have goesOn := ne_finish_of_isSolid solid
  obtain ⟨shape, whole, length, -⟩ := h.whole.behind h.front goesOn
  obtain ⟨shape', whole', length', -⟩ := h.whole'.behind h.front' goesOn
  have outlines := h.same
  rw [shape, shape'] at outlines
  have separates := not_separates_of_isSolid solid
  have newline : u.isNewline = false := by
    cases ends : u.isNewline with
    | false => rfl
    | true => exact nomatch (separates_of_isNewline ends).symm.trans separates
  have behind : outline (u.opened w.stack) c.behind.tokens =
      outline (u.opened w.stack) d.behind.tokens := by
    cases fronts_of_outline outlines (fun _ => newline) fun _ => newline with
    | separators _ _ separates' => exact nomatch separates.symm.trans separates'
    | token _ behind => exact behind
  have room := h.room
  have room' := h.room'
  refine ⟨rfl, behind, c.brackets_behind.trans h.left, d.brackets_behind.trans h.right,
    by simpa using h.names, by simpa using h.serial, whole, whole', ?_, ?_⟩
  · change c.behind.rest.length ≤ w.room - 1
    omega
  · change d.behind.rest.length ≤ w.room' - 1
    omega

/-- The separators in front may be passed over where they count, and what follows them is one
token. -/
theorem Similar.dropSeparators {w : Whereabouts} {c d : Cursor} (h : Similar w c d)
    (strict : isLoose w.stack = false) :
    Similar w (c.drop Token.separates) (d.drop Token.separates) ∧
      (c.drop Token.separates).next.token = (d.drop Token.separates).next.token := by
  have same : outline w.stack (c.drop Token.separates).tokens =
      outline w.stack (d.drop Token.separates).tokens := by
    rw [c.tokens_drop, d.tokens_drop, outline_dropWhile_separators strict,
      outline_dropWhile_separators strict, h.same]
  have passed : ∀ {c : Cursor}, AreWhole c.tokens → AreWhole (c.drop Token.separates).tokens := by
    intro c whole
    rw [c.tokens_drop]
    exact whole.dropWhile rfl
  have less : ∀ c : Cursor, (c.drop Token.separates).rest.length ≤ c.rest.length := fun c =>
    (List.dropWhile_suffix _).length_le
  have counts : ∀ {c : Cursor} {t : Token} {ts : List Token},
      (c.drop Token.separates).tokens = t :: ts → t.separates = false := by
    intro c t ts shape
    have first := List.head?_dropWhile_not Token.separates c.tokens
    rw [← c.tokens_drop, shape] at first
    exact first
  refine ⟨⟨same, h.left, h.right, h.names, h.serial, passed h.whole, passed h.whole',
    Nat.le_trans (less c) h.room, Nat.le_trans (less d) h.room'⟩, ?_⟩
  obtain ⟨t, ts, shape⟩ := List.exists_cons_of_ne_nil (passed h.whole).ne_nil
  obtain ⟨u, us, shape'⟩ := List.exists_cons_of_ne_nil (passed h.whole').ne_nil
  rw [shape, shape', outline_strict strict (counts shape), outline_strict strict (counts shape')]
    at same
  rw [Cursor.next_token, Cursor.next_token, shape, shape', (List.cons.inj same).1]
  rfl

/-! ## Readers that track each other -/

/-- From cursors that are related, the second reader reads what the first one reads, and the cursors
behind them are related. -/
def Tracks {α : Type} (pre : Cursor → Cursor → Prop) (p q : Parser α)
    (post : α → α → Cursor → Cursor → Prop) : Prop :=
  ∀ ⦃c d a c'⦄, pre c d → p c = .ok (a, c') → ∃ a' d', q d = .ok (a', d') ∧ post a a' c' d'

/-- The readers return the same. -/
def Agreed {α : Type} (w : Whereabouts) (a a' : α) (c d : Cursor) : Prop := a = a' ∧ Similar w c d

namespace Tracks

variable {α β : Type} {pre pre' : Cursor → Cursor → Prop} {p q : Parser α} {f g : α → Parser β}
  {post post' : α → α → Cursor → Cursor → Prop} {post₂ : β → β → Cursor → Cursor → Prop}
  {w : Whereabouts}

theorem mono (h : Tracks pre p q post) (le : ∀ a a' c d, post a a' c d → post' a a' c d) :
    Tracks pre p q post' := by
  intro c d a c' related ran
  obtain ⟨a', d', ran', related'⟩ := h related ran
  exact ⟨a', d', ran', le _ _ _ _ related'⟩

/-- Less may be known of how much has been read. -/
theorem widen {w' : Whereabouts} (h : Tracks pre p q (Agreed w)) (stack : w.stack = w'.stack)
    (brackets : w.brackets = w'.brackets) (room : w.room ≤ w'.room) (room' : w.room' ≤ w'.room') :
    Tracks pre p q (Agreed w') :=
  h.mono fun _ _ _ _ ⟨same, similar⟩ => ⟨same, similar.widen stack brackets room room'⟩

theorem from_ (h : Tracks pre p q post) (le : ∀ c d, pre' c d → pre c d) : Tracks pre' p q post :=
  fun _ _ _ _ related ran => h (le _ _ related) ran

/-- What holds in front of all related cursors may be assumed. -/
theorem knowing {P : Prop} (holds : ∀ c d, pre c d → P) (h : P → Tracks pre p q post) :
    Tracks pre p q post :=
  fun _ _ _ _ related ran => h (holds _ _ related) related ran

theorem pure {a a' : α} (related : ∀ c d, pre c d → post a a' c d) :
    Tracks pre (Pure.pure a) (Pure.pure a') post := by
  intro c d b c' before ran
  cases ran
  exact ⟨a', d, rfl, related _ _ before⟩

/-- A reader that reads nothing. -/
theorem done (a : α) : Tracks (Similar w) (Pure.pure a) (Pure.pure a) (Agreed w) :=
  pure fun _ _ similar => ⟨rfl, similar⟩

theorem bind (first : Tracks pre p q post) (next : ∀ a a', Tracks (post a a') (f a) (g a') post₂) :
    Tracks pre (p >>= f) (q >>= g) post₂ := by
  intro c d b c' related ran
  obtain ⟨a, c₁, ran₁, ran₂⟩ := ok_of_bind ran
  obtain ⟨a', d₁, first', related₁⟩ := first related ran₁
  obtain ⟨b', d', second', related'⟩ := next a a' related₁ ran₂
  exact ⟨b', d', (bind_of_ok first').trans second', related'⟩

/-- Behind readers that return the same. -/
theorem andThen {w' : Whereabouts} (first : Tracks pre p q (Agreed w'))
    (next : ∀ a, Tracks (Similar w') (f a) (g a) post₂) : Tracks pre (p >>= f) (q >>= g) post₂ := by
  refine first.bind fun a a' c d b c' ⟨same, similar⟩ ran => ?_
  subst same
  exact next a similar ran

theorem of_fails (fails : p.Fails) : Tracks pre p q post :=
  fun _ _ _ _ _ ran => absurd ran (fails _ _)

/-- Nothing is read where there is no room. -/
theorem of_pos (h : 0 < w.room → 0 < w.room' → Tracks (Similar w) p q post) :
    Tracks (Similar w) p q post :=
  fun _ _ _ _ similar ran => h similar.room_pos.1 similar.room_pos.2 similar ran

/-- A step that reads nothing. -/
theorem step (w' : Whereabouts) {h : Cursor → Cursor}
    (moved : ∀ c d, Similar w c d → Similar w' (h c) (h d)) :
    Tracks (Similar w) (modify h : Parser PUnit) (modify h) (Agreed w') := by
  intro c d a c' similar ran
  cases ran
  exact ⟨⟨⟩, h d, rfl, rfl, moved _ _ similar⟩

theorem get : Tracks pre get get fun a a' c d => a = c ∧ a' = d ∧ pre c d := by
  intro c d a c' related ran
  cases ran
  exact ⟨d, d, rfl, rfl, rfl, related⟩

/-- To look at the next tokens. -/
theorem peek (fits : w.Fits) : Tracks (Similar w) peek peek (Meets w) := by
  intro c d t c' similar ran
  rw [peek_eq] at ran
  cases ran
  exact ⟨_, _, peek_eq d, similar.meets fits⟩

/-- The readers behind a look at the next tokens see one token, or separators and ends. -/
theorem peeked {f g : Token → Parser β} (fits : w.Fits)
    (solid : ∀ t, t.isSolid = true → Tracks (Meets w t t) (f t) (g t) post₂)
    (hollow : ∀ t u, t.isSolid = false → u.isSolid = false → Tracks (Similar w) (f t) (g u) post₂) :
    Tracks (Similar w) (Parser.peek >>= f) (Parser.peek >>= g) post₂ := by
  refine (peek fits).bind fun t u c d b c' meets ran => ?_
  cases isSolid : t.isSolid with
  | true =>
      obtain ⟨rfl, -⟩ := meets.taken isSolid
      exact solid u isSolid meets ran
  | false =>
      exact hollow t u isSolid (meets.alike.isSolid_eq.trans isSolid) meets.toSimilar ran

/-- To look at the next tokens where every token counts. -/
theorem here (strict : w.brackets = 0) (fits : w.Fits) :
    Tracks (Similar w) here here fun x y c d => Meets w x.token y.token c d := by
  intro c d t c' similar ran
  have still : ∀ {c : Cursor}, c.brackets = w.brackets → c.settled = c := by
    intro c count
    rw [Cursor.settled, if_neg (by omega)]
  have meets := similar.meets fits
  rw [still similar.left, still similar.right] at meets
  cases ran
  exact ⟨_, _, here_eq d, meets⟩

/-- The readers behind a look at the next token and the one behind it see a name and a token that is
no separator in front of both cursors, or anything else. -/
theorem ahead {f g : Option Token → Token → Parser β} (strict : w.brackets = 0) (fits : w.Fits)
    (named : ∀ first t, t.isSolid = true →
      Tracks (fun c d => Meets w (.name first) (.name first) c d ∧
        Meets (w.behind (.name first)) t t c.behind d.behind)
        (f (some t) (.name first)) (g (some t) (.name first)) post₂)
    (other : ∀ t t' u u', (∀ first t₂, t = .name first → t' = some t₂ → t₂.isSolid = false) →
      (∀ first u₂, u = .name first → u' = some u₂ → u₂.isSolid = false) →
      Tracks (Similar w) (f t' t) (g u' u) post₂) :
    Tracks (Similar w)
      (do f (((← MonadState.get).rest.drop 1).head?.map Placed.token) (← Parser.peek))
    (do g (((← MonadState.get).rest.drop 1).head?.map Placed.token) (← Parser.peek)) post₂ := by
  have still : ∀ {c : Cursor}, c.brackets = 0 → c.settled = c := by
    intro c count
    rw [Cursor.settled, if_neg (by omega)]
  have looks : ∀ {f : Option Token → Token → Parser β} {c : Cursor}, c.brackets = 0 →
      (do f (((← MonadState.get).rest.drop 1).head?.map Placed.token) (← Parser.peek) : Parser β)
      c =
        f ((c.rest.drop 1).head?.map Placed.token) c.next.token c := by
    intro f c count
    have seen : Parser.peek c = .ok (c.next.token, c) := by rw [peek_eq, still count]
    exact bind_of_ok seen
  intro c d b c' similar ran
  have left := similar.left.trans strict
  have right := similar.right.trans strict
  rw [looks left] at ran
  rw [looks right]
  have meets := similar.meets fits
  rw [still left, still right] at meets
  cases isName : c.next.token with
  | name first =>
      obtain ⟨same, behind⟩ := meets.taken (by rw [isName]; rfl)
      obtain ⟨-, -, -, second⟩ := meets.whole.behind isName (by simp)
      obtain ⟨-, -, -, second'⟩ := meets.whole'.behind (same.trans isName) (by simp)
      rw [isName] at behind
      have next := behind.meets fits
      rw [still (c.brackets_behind.trans left), still (d.brackets_behind.trans right)] at next
      rw [second, isName] at ran
      rw [second', same, isName]
      cases solid : c.behind.next.token.isSolid with
      | true =>
          have same' := next.alike.eq_of_isSolid solid
          rw [same'] at next ⊢
          rw [same, isName] at meets
          exact named first c.behind.next.token solid ⟨meets, next⟩ ran
      | false =>
          refine other _ _ _ _ ?_ ?_ similar ran
          · rintro _ _ _ ⟨⟩
            exact solid
          · rintro _ _ _ ⟨⟩
            exact next.alike.isSolid_eq.trans solid
  | _ =>
      refine other _ _ _ _ (fun first _ named => ?_) (fun first _ named => ?_) similar ran
      · exact nomatch isName.symm.trans named
      · have same := meets.alike.eq_of_isSolid' (by rw [named]; rfl)
        exact nomatch isName.symm.trans (same.trans named)

/-- The token that is seen is taken. -/
theorem advance {t u : Token} (solid : t.isSolid = true) :
    Tracks (Meets w t u) advance advance fun x y c d => x.token = t ∧ y.token = t ∧
    Similar (w.behind t) c d := by
  intro c d x c' meets ran
  obtain ⟨rfl, similar⟩ := meets.taken solid
  rw [advance_eq, meets.settled] at ran
  cases ran
  have taken : Parser.advance d = .ok (d.next, d.behind) := by rw [advance_eq, meets.settled']
  exact ⟨_, _, taken, meets.front, meets.front', similar⟩

/-- Behind the token that is seen. -/
theorem advanceThen {t u : Token} {f g : Placed → Parser β} (solid : t.isSolid = true)
    (next : ∀ x y, Tracks (Similar (w.behind t)) (f x) (g y) post₂) :
    Tracks (Meets w t u) (Parser.advance >>= f) (Parser.advance >>= g) post₂ :=
  (advance solid).bind fun x y => (next x y).from_ fun _ _ ⟨_, _, similar⟩ => similar

/-- A token is taken, and the reader behind it fails on separators and at the end. -/
theorem take {f g : Placed → Parser β} (fits : w.Fits)
    (fails : ∀ x, x.token.isSolid = false → (f x).Fails)
    (next : ∀ x y, x.token = y.token → x.token.isSolid = true →
      Tracks (Similar (w.behind x.token)) (f x) (g y) post₂) :
    Tracks (Similar w) (Parser.advance >>= f) (Parser.advance >>= g) post₂ := by
  intro c d b c' similar ran
  have meets := similar.meets fits
  obtain ⟨x, c₁, taken, ran₂⟩ := ok_of_bind ran
  rw [advance_eq] at taken
  cases taken
  cases solid : c.settled.next.token.isSolid with
  | false => exact absurd ran₂ (fails _ solid _ _)
  | true =>
      obtain ⟨same, behind⟩ := meets.taken solid
      obtain ⟨b', d', ran', related⟩ :=
        next c.settled.next d.settled.next same.symm solid behind ran₂
      exact ⟨b', d', (bind_of_ok (advance_eq d)).trans ran', related⟩

/-- The reader behind a check knows what has been found. -/
theorem check {f g : Bool → Parser β} (fits : w.Fits) {mark : Symbol}
    (solid : (Token.symbol mark).isSolid = true)
    (found : Tracks (Meets w (.symbol mark) (.symbol mark)) (f true) (g true) post₂)
    (other : Tracks (Similar w) (f false) (g false) post₂) :
    Tracks (Similar w) (check mark >>= f) (check mark >>= g) post₂ := by
  rw [check_bind, check_bind]
  refine (peek fits).bind fun t u => ?_
  by_cases same : t = .symbol mark
  · subst same
    intro c d b c' meets ran
    obtain ⟨rfl, -⟩ := meets.taken solid
    have is : (Token.symbol mark).isSymbol mark = true := by simp [Token.isSymbol]
    rw [is] at ran ⊢
    exact found meets ran
  · intro c d b c' meets ran
    have isNot : ∀ {t : Token}, t ≠ .symbol mark → t.isSymbol mark = false := by
      intro t no
      cases t with
      | symbol m => simpa [Token.isSymbol] using fun same : m = mark => no (same ▸ rfl)
      | _ => rfl
    have no : u ≠ .symbol mark := by
      rintro rfl
      exact same (meets.alike.eq_of_isSolid' solid)
    rw [isNot same] at ran
    rw [isNot no]
    exact other meets.toSimilar ran

theorem expect (fits : w.Fits) {mark : Symbol} (solid : (Token.symbol mark).isSolid = true)
    (what : String) :
    Tracks (Similar w) (expect mark what) (expect mark what)
      (Agreed (w.behind (.symbol mark))) := by
  exact check fits solid (advanceThen solid fun _ _ => done _)
    (of_fails (.after (fun _ => fails_complain _) _))

/-- The number of tokens that follow is enough for what is read of them. -/
theorem remaining {f g : Nat → Parser β}
    (next : ∀ n m, n ≤ w.room → m ≤ w.room' → Tracks (Similar (w.within n m)) (f n) (g m) post₂) :
    Tracks (Similar w) (remaining >>= f) (remaining >>= g) post₂ := by
  intro c d b c' similar ran
  have read : Parser.remaining d = .ok (d.rest.length, d) := rfl
  rw [bind_of_ok read]
  exact next c.rest.length d.rest.length similar.room similar.room'
    { similar with room := Nat.le_refl _, room' := Nat.le_refl _ } ran

/-! ### Names -/

theorem define (name : String) : Tracks (Similar w) (define name) (define name) (Agreed w) := by
  have renamed : (Parser.define name : Parser Unit) =
      modify fun c => c.withNames (c.names.modifyHead (name :: ·)) := by
    refine congrArg modify (funext fun c => ?_)
    obtain ⟨rest, brackets, names, serial⟩ := c
    cases names <;> rfl
  rw [renamed]
  exact step w fun c d similar => similar.rename (List.modifyHead (name :: ·))

theorem body {w' : Whereabouts} (h : Tracks (Similar w) p q (Agreed w')) :
    Tracks (Similar w) (body p) (body q) (Agreed w') := by
  refine (step w fun c d similar => similar.rename ([] :: ·)).andThen fun _ => h.andThen fun a => ?_
  exact (step w' fun c d similar => similar.rename leave).andThen fun _ => done _

theorem requireRoot (ctx : Context) (path : Path) (place place' : Text.Position) :
    Tracks (Similar w) (requireRoot ctx path place) (requireRoot ctx path place') (Agreed w) := by
  intro c d a c' similar ran
  have looks : ∀ (c : Cursor) place, Parser.requireRoot ctx path place c =
      if (c.names.any (·.contains path.root) || ctx.isBound path.root) = true then .ok ((), c)
      else .error (.unknownName place path.root) := by
    intro c place
    have seen : Parser.sees ctx path.root c =
      .ok (c.names.any (·.contains path.root) || ctx.isBound path.root, c) := rfl
    rw [Parser.requireRoot, bind_of_ok seen]
    split <;> rfl
  rw [looks] at ran
  rw [looks, ← similar.names]
  split at ran
  · rename_i seen
    cases ran
    exact ⟨(), d, if_pos seen, rfl, similar⟩
  · exact nomatch ran

theorem reference (ctx : Context) (path : Path) (place place' : Text.Position) :
    Tracks (Similar w) (reference ctx path place) (reference ctx path place') (Agreed w) :=
  (requireRoot ctx path place place').andThen fun _ => done _

/-- The same names are in view and the same instance is next, so a call is read as the same tree. -/
theorem call (ctx : Context) (path : Path) (args : List Tree) (place place' : Text.Position) :
    Tracks (Similar w) (call ctx path args place) (call ctx path args place') (Agreed w) := by
  have sees : Tracks (Similar w) (sees ctx path.root) (sees ctx path.root) (Agreed w) := by
    intro c d seen c' similar ran
    cases ran
    refine ⟨_, d, ?_, rfl, similar⟩
    rw [similar.names]
    rfl
  rw [Parser.call, Parser.call]
  refine sees.andThen fun seen => ?_
  split
  · split
    · intro c d t c' similar ran
      have current : ∀ c : Cursor, (MonadState.get : Parser Cursor) c = .ok (c, c) := fun _ => rfl
      rw [bind_of_ok (current c)] at ran
      rw [bind_of_ok (current d), ← similar.serial]
      cases made : ctx.registry.decode path.root _ c.serial with
      | ok v =>
          rw [made] at ran
          cases ran
          refine ⟨_, _, rfl, rfl, similar.same, similar.left, similar.right, similar.names,
            ?_, similar.whole, similar.whole', similar.room, similar.room'⟩
          rfl
      | error fault =>
          rw [made] at ran
          cases fault <;> exact nomatch ran
    · exact done _
  · exact (requireRoot ctx path place place').andThen fun _ => done _

/-- What stands between parentheses or square brackets is read where one more pair of them is
open. -/
theorem bracketed {w' : Whereabouts}
    (h : Tracks (Similar { w with brackets := w.brackets + 1 }) p q
      (Agreed { w' with brackets := w'.brackets + 1 })) :
    Tracks (Similar w) (bracketed p) (bracketed q) (Agreed w') := by
  refine (step { w with brackets := w.brackets + 1 } fun c d similar => ?_).andThen fun _ =>
    h.andThen fun a => ?_
  · exact ⟨similar.same, congrArg (· + 1) similar.left, congrArg (· + 1) similar.right,
      similar.names, similar.serial, similar.whole, similar.whole', similar.room, similar.room'⟩
  · refine (step w' fun c d similar => ?_).andThen fun _ =>
      done _
    exact ⟨similar.same, congrArg (· - 1) similar.left, congrArg (· - 1) similar.right,
      similar.names, similar.serial, similar.whole, similar.whole', similar.room, similar.room'⟩

end Tracks

end PeerScript.Script
