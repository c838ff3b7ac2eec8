import PeerScript.Proofs.Messages.Cursors
import PeerScript.Script.Language
import Mathlib.Logic.Basic

/-!
# Reading a text in front of another one

`Carries` says of a parser that whatever it reads of a text alone, it also reads of the whole that
the text is a part of: the same trees, with other numbers for the instances in them.  What a parser
does at the end of the text is what has to be looked at, as nothing else is different.

The tone of a parser tells whether the cursor may be doomed behind it.  A parser that uses up the
mark which closes something cannot have been doomed before, so what stands inside of brackets may be
read loosely.
-/

set_option autoImplicit false

namespace PeerScript.Script

open Text (Position)
open PeerScript.Script.Parser

variable {α β γ δ : Type}

/-! ## Parsers that follow each other -/

/-- Whether a parser may end doomed, or does not, or does not and has not begun at the end
either. -/
inductive Tone where
  | loose
  | still
  | tight
  deriving DecidableEq

/-! What a tone is not is found by its instances, so that no reader has to say it. -/

instance : Fact (Tone.loose ≠ .still) := ⟨nofun⟩
instance : Fact (Tone.loose ≠ .tight) := ⟨nofun⟩
instance : Fact (Tone.still ≠ .loose) := ⟨nofun⟩
instance : Fact (Tone.still ≠ .tight) := ⟨nofun⟩
instance : Fact (Tone.tight ≠ .loose) := ⟨nofun⟩
instance : Fact (Tone.tight ≠ .still) := ⟨nofun⟩

/-- What comes behind a parser of the first tone may have the second one. -/
structure Tone.Leads (tone tone' : Tone) : Prop where
  sure : tone' = .still → tone ≠ .loose

instance (tone : Tone) : Fact (tone.Leads .loose) := ⟨⟨nofun⟩⟩
instance (tone : Tone) : Fact (tone.Leads .tight) := ⟨⟨nofun⟩⟩
instance (tone : Tone) [h : Fact (tone ≠ .loose)] : Fact (tone.Leads .still) := ⟨⟨fun _ => h.out⟩⟩

instance (i : Int64) : Fact (Token.int i ≠ .finish) := ⟨nofun⟩
instance (x : Float) : Fact (Token.float x ≠ .finish) := ⟨nofun⟩
instance (text : String) : Fact (Token.str text ≠ .finish) := ⟨nofun⟩
instance (text : String) : Fact (Token.name text ≠ .finish) := ⟨nofun⟩
instance (mark : Symbol) : Fact (Token.symbol mark ≠ .finish) := ⟨nofun⟩
instance : Fact (Token.newline ≠ .finish) := ⟨nofun⟩

/-- From one cursor to another one a parser has read of the text alone what `b` reads of the
whole. -/
structure Joins (s : Seam) (tone : Tone) (b : Parser β) (R : β → Trace → Prop) (c c' : Cursor) :
    Prop where
  moved : ∃ new y, c.Moved new c' ∧ R y new
  starts : tone = .tight → ¬ c.IsOver
  joined : ∀ d, s.Meets c d → c'.serial ≤ s.limit →
    (tone = .loose ∧ s.Doomed c') ∨
      ∃ new y d', c.Moved new c' ∧ b d = .ok (y, d') ∧ s.Meets c' d' ∧ R y new

/-- What `a` reads of the text alone, `b` reads of the whole, from a cursor with at most `room`
tokens that fulfils a condition. -/
def Carries (s : Seam) (tone : Tone) (room : Nat) (start : Cursor → Prop) (a : Parser α)
    (b : Parser β) (R : α → β → Trace → Prop) : Prop :=
  ∀ ⦃c x c'⦄, c.IsWhole → c.rest.length ≤ room → start c → a c = .ok (x, c') →
    Joins s tone b (R x) c c'

/-- No condition on a cursor. -/
def anywhere : Cursor → Prop := fun _ => True

theorem Token.isSymbol_eq_false {mark : Symbol} {t : Token} (ne : t ≠ .symbol mark) :
    t.isSymbol mark = false := by
  cases t <;> simp_all [isSymbol]

variable {s : Seam} {tone tone' : Tone} {room room' : Nat} {start : Cursor → Prop} {a : Parser α}
  {b : Parser β} {R : α → β → Trace → Prop}

theorem Joins.bind {b : Parser α} {g : α → Parser β} {R : α → Trace → Prop} {S : β → Trace → Prop}
    {c c' c'' : Cursor} (sure : tone' = .still → tone ≠ .loose) (first : Joins s tone b R c c')
    (next : ∀ y new, R y new → c.Moved new c' →
      Joins s tone' (g y) (fun z new' => S z (new.followedBy new')) c' c'') :
    Joins s tone' (b >>= g) S c c'' := by
  obtain ⟨new₁, y₁, moved₁, related₁⟩ := first.moved
  have later := next y₁ new₁ related₁ moved₁
  obtain ⟨new₂, y₂, moved₂, related₂⟩ := later.moved
  refine ⟨⟨_, y₂, moved₁.trans moved₂, related₂⟩, fun tight atEnd =>
    later.starts tight (moved₁.isOver atEnd), fun d meets le => ?_⟩
  rcases first.joined d meets (Nat.le_trans moved₂.serial le) with
    ⟨rfl, doomed⟩ | ⟨new, y, d₁, moved, ran, meets', related⟩
  · -- what comes behind has seen the end of the text, so it is loose
    cases tone' with
    | loose => exact .inl ⟨rfl, doomed.moved moved₂⟩
    | still => exact absurd rfl (sure rfl)
    | tight => exact absurd doomed.2.1 (later.starts rfl)
  · rcases (next y new related moved).joined d₁ meets' le with
      ⟨loose, doomed⟩ | ⟨new', z, d₂, moved', ran', meets'', related'⟩
    · exact .inl ⟨loose, doomed⟩
    · exact .inr ⟨_, z, d₂, moved.trans moved', by rw [Parser.bind_of_ok ran]; exact ran', meets'',
        related'⟩

namespace Carries

theorem mono {S : α → β → Trace → Prop} (h : Carries s tone room start a b R)
    (le : ∀ x y new, R x y new → S x y new) : Carries s tone room start a b S := by
  intro c x c' whole small at_ ran
  have joins := h whole small at_ ran
  obtain ⟨new, y, moved, related⟩ := joins.moved
  refine ⟨⟨new, y, moved, le _ _ _ related⟩, joins.starts, fun d meets below => ?_⟩
  refine (joins.joined d meets below).imp_right ?_
  rintro ⟨new, y, d', moved, ran, meets, related⟩
  exact ⟨new, y, d', moved, ran, meets, le _ _ _ related⟩

theorem within (h : Carries s tone room' start a b R) (le : room ≤ room') :
    Carries s tone room start a b R :=
  fun _ _ _ whole small => h whole (Nat.le_trans small le)

theorem from_anywhere (h : Carries s tone room anywhere a b R) : Carries s tone room start a b R :=
  fun _ _ _ whole small _ => h whole small trivial

theorem of_fails (h : a.Fails) : Carries s tone room start a b R :=
  fun _ _ _ _ _ _ ran => absurd ran (h _ _)

/-- There is no cursor without room. -/
theorem of_nothing : Carries s tone 0 start a b R :=
  fun _ _ _ whole small => absurd (List.length_eq_zero_iff.mp (Nat.le_zero.mp small)) whole.there

theorem loosen (h : Carries s tone room start a b R) : Carries s .loose room start a b R := by
  intro c x c' whole small at_ ran
  have joins := h whole small at_ ran
  exact ⟨joins.moved, nofun, fun d meets below =>
    (joins.joined d meets below).imp_left fun ⟨_, doomed⟩ => ⟨rfl, doomed⟩⟩

/-- Where line ends do not count, no parser is doomed. -/
theorem sure (blunt : s.isSharp = false) (h : Carries s tone room start a b R) :
    Carries s .still room start a b R := by
  intro c x c' whole small at_ ran
  have joins := h whole small at_ ran
  refine ⟨joins.moved, nofun, fun d meets below => ?_⟩
  rcases joins.joined d meets below with ⟨-, sharp, -⟩ | joined
  · rw [blunt] at sharp
    exact nomatch sharp
  · exact .inr joined

theorem pure {x : α} {y : β} (h : R x y .nothing) [idle : Fact (tone ≠ .tight)] :
    Carries s tone room start (Pure.pure x) (Pure.pure y) R := by
  intro c x c' whole small at_ ran
  cases ran
  exact ⟨⟨_, y, .refl whole, h⟩, fun tight => absurd tight idle.out,
    fun d meets _ => .inr ⟨_, y, d, .refl whole, rfl, meets, h⟩⟩

theorem bind {f : α → Parser γ} {g : β → Parser δ} {S : γ → δ → Trace → Prop}
    (first : Carries s tone room start a b R)
    (next : ∀ x y new, R x y new → Carries s tone' (room - new.used) anywhere (f x) (g y)
      fun z w new' => S z w (new.followedBy new'))
    [leads : Fact (tone.Leads tone')] :
    Carries s tone' room start (a >>= f) (b >>= g) S := by
  intro c z c'' whole small at_ ran
  obtain ⟨x, c', ran, ran'⟩ := ok_of_bind ran
  refine (first whole small at_ ran).bind leads.out.sure fun y new related moved => ?_
  have used := moved.used
  exact next x y new related (moved.whole whole) (by omega) trivial ran'

/-- What does not look at the tokens does not change the tone. -/
theorem done {f : α → Parser γ} {g : β → Parser δ} {S : γ → δ → Trace → Prop}
    (first : Carries s tone room start a b R)
    (next : ∀ x y new, R x y new → Carries s .still (room - new.used) anywhere (f x) (g y)
      fun z w new' => S z w (new.followedBy new')) :
    Carries s tone room start (a >>= f) (b >>= g) S := by
  by_cases loose : tone = .loose
  · subst loose
    exact first.bind fun x y new related => (next x y new related).loosen
  · have : Fact (tone ≠ .loose) := ⟨loose⟩
    have still := first.bind next
    intro c z c'' whole small at_ ran
    have joins := still whole small at_ ran
    obtain ⟨x, c', ran, -⟩ := ok_of_bind ran
    refine ⟨joins.moved, (first whole small at_ ran).starts, fun d meets below => ?_⟩
    rcases joins.joined d meets below with ⟨other, -⟩ | joined
    · exact nomatch other
    · exact .inr joined

/-! ## Looking at the next token -/

/-- What is read behind the line ends that do not count. -/
theorem settled {g : Token → Parser β} (moves : tone ≠ .still) {c c' : Cursor} {x : α} {t : Token}
    (whole : c.IsWhole) (same : ∀ d, s.Meets c.settled d → d.next.token = t)
    (joins : Joins s tone (g t) (R x) c.settled c') :
    Joins s tone (Parser.peek >>= g) (R x) c c' := by
  have first := Cursor.Moved.settled whole
  have along : ∀ {new}, c.settled.Moved new c' → c.Moved new c' := fun h => by
    simpa [Trace.followedBy] using first.trans h
  obtain ⟨new, y, moved, related⟩ := joins.moved
  refine ⟨⟨new, y, along moved, related⟩,
    fun tight atEnd => joins.starts tight (first.isOver atEnd),
    fun d meets below => ?_⟩
  rcases meets.settled with doomed | meets'
  · cases tone with
    | loose => exact .inl ⟨rfl, doomed.moved moved⟩
    | still => exact absurd rfl moves
    | tight => exact absurd doomed.2.1 (joins.starts rfl)
  · refine (joins.joined _ meets' below).imp_right ?_
    rintro ⟨new, y, d', moved, ran, meets, related⟩
    refine ⟨new, y, d', along moved, ?_, meets, related⟩
    rw [Parser.bind_of_ok (peek_eq d), same _ meets']
    exact ran

theorem peek {f : Token → Parser α} {g : Token → Parser β}
    (more : ∀ t, t ≠ .finish → Carries s tone room (Cursor.IsAt t) (f t) (g t) R)
    (last : Carries s tone room (Cursor.IsAt .finish) (f .finish) (g s.head) R)
    [moves : Fact (tone ≠ .still)] :
    Carries s tone room start (Parser.peek >>= f) (Parser.peek >>= g) R := by
  intro c x c' whole small at_ ran
  rw [Parser.bind_of_ok (peek_eq c)] at ran
  have first := Cursor.Moved.settled whole
  have whole' := first.whole whole
  have small' := Nat.le_trans first.rest.length_le small
  have there : c.settled.IsAt c.settled.next.token := by rw [Cursor.IsAt, c.settled_settled]
  by_cases atEnd : c.settled.IsOver
  · have finish := whole'.over_iff.mp atEnd
    rw [finish] at there ran
    exact settled moves.out whole (fun d meets => meets.next_over atEnd)
      (last whole' small' there ran)
  · have inner := fun finish => atEnd (whole'.over_iff.mpr finish)
    exact settled moves.out whole (fun d meets => meets.next atEnd)
      (more _ inner whole' small' there ran)

/-- Whether the next token is a certain mark, which does not stand at the edge. -/
theorem check {mark : Symbol} {f : Parser α} {g : Parser β} (edge : s.head ≠ .symbol mark)
    (yes : Carries s tone room (Cursor.IsAt (.symbol mark)) a b R)
    (no : Carries s tone room anywhere f g R) [moves : Fact (tone ≠ .still)] :
    Carries s tone room start (Parser.check mark >>= fun found => if found = true then a else f)
      (Parser.check mark >>= fun found => if found = true then b else g) R := by
  rw [check_bind, check_bind]
  refine peek (fun t _ => ?_) ?_
  · by_cases same : t = .symbol mark
    · subst same
      simpa [Token.isSymbol] using yes
    · simpa [Token.isSymbol_eq_false same] using no.from_anywhere
  · have other : Token.finish.isSymbol mark = false := rfl
    simpa [Token.isSymbol_eq_false edge, other] using no.from_anywhere

/-- Where a mark must come, the end of the text will not do. -/
theorem check_at_end {mark : Symbol} {f : Parser α} {b : Parser β} (no : f.Fails) :
    Carries s tone room (Cursor.IsAt .finish)
      (Parser.check mark >>= fun found => if found = true then a else f) b R := by
  intro c x c' _ _ at_ ran
  rw [check_bind, Parser.bind_of_ok (peek_eq c), show c.settled.next.token = .finish from at_]
    at ran
  exact absurd ran (no _ _)

/-! ## Taking a token -/

theorem advance_at {t : Token} (more : t ≠ .finish) :
    Carries s .tight room (Cursor.IsAt t) advance advance
      fun p q new => p.token = t ∧ q.token = t ∧ new = .token := by
  intro c p c' whole small at_ ran
  cases ran
  have first := Cursor.Moved.settled whole
  have whole' := first.whole whole
  have inner : ¬ c.settled.IsOver := fun atEnd => more (at_ ▸ whole'.over_iff.mp atEnd)
  have moved : c.Moved .token c.settled.behind := first.trans (.behind whole' inner)
  refine ⟨⟨_, _, moved, at_, at_, rfl⟩, fun _ atEnd => inner (first.isOver atEnd),
    fun d meets _ => ?_⟩
  rcases meets.settled with doomed | meets'
  · exact absurd doomed.2.1 inner
  · exact .inr ⟨_, _, _, moved, advance_eq d, meets'.behind inner, at_,
      (meets'.next inner).trans at_, rfl⟩

theorem take_of_ne {t : Token} (more : t ≠ .finish) {f : Placed → Parser α} {g : Placed → Parser β}
    (next : ∀ p q, p.token = t → q.token = t →
      Carries s tone (room - 1) anywhere (f p) (g q) fun x y new => R x y
        (Trace.token.followedBy new)) :
    Carries s tone room (Cursor.IsAt t) (advance >>= f) (advance >>= g) R := by
  have : Fact (Tone.tight.Leads tone) := ⟨⟨fun _ => nofun⟩⟩
  refine (advance_at more).bind fun p q new taken => ?_
  rw [taken.2.2]
  exact next p q taken.1 taken.2.1

/-- Takes the token that has been looked at. -/
theorem take {t : Token} [more : Fact (t ≠ .finish)] {f : Placed → Parser α} {g : Placed → Parser β}
    (next : ∀ p q, p.token = t → q.token = t →
      Carries s tone (room - 1) anywhere (f p) (g q) fun x y new => R x y
        (Trace.token.followedBy new)) :
    Carries s tone room (Cursor.IsAt t) (advance >>= f) (advance >>= g) R :=
  take_of_ne more.out next

/-- Takes the token that has been looked at, and no other one. -/
theorem takeLast {t : Token} [more : Fact (t ≠ .finish)] {f : Placed → Parser α}
    {g : Placed → Parser β} (next : ∀ p q, p.token = t → q.token = t →
      Carries s .still (room - 1) anywhere (f p) (g q)
        fun x y new => R x y (Trace.token.followedBy new)) :
    Carries s .tight room (Cursor.IsAt t) (advance >>= f) (advance >>= g) R := by
  refine (advance_at more.out).done fun p q new taken => ?_
  rw [taken.2.2]
  exact next p q taken.1 taken.2.1

/-- Where the end of a text will not do, there is a token to be taken. -/
theorem advance_more {f : Placed → Parser α} {g : Placed → Parser β}
    (finish : ∀ p, p.token = .finish → (f p).Fails)
    (more : ∀ t, t ≠ .finish → Carries s tone room (Cursor.IsAt t) (advance >>= f)
      (advance >>= g) R) :
    Carries s tone room start (advance >>= f) (advance >>= g) R := by
  intro c x c' whole small at_ ran
  refine more c.settled.next.token (fun last => ?_) whole small rfl ran
  rw [Parser.bind_of_ok (advance_eq c)] at ran
  exact finish _ last _ _ ran

theorem expect {mark : Symbol} (edge : s.head ≠ .symbol mark) (what : String) :
    Carries s .tight room start (expect mark what) (expect mark what) fun _ _ new =>
      new = .token := by
  refine check edge ?_ (of_fails (.after (fun _ => fails_complain _) _))
  exact takeLast fun p q _ _ => pure rfl

/-- Looking at the next token where line ends count. -/
theorem here {f : Placed → Parser α} {g : Placed → Parser β}
    (more : ∀ p q, q.token = p.token → p.token ≠ .finish →
      Carries s tone room (fun c => ¬ c.IsOver) (f p) (g q) R)
    (last : ∀ p q, p.token = .finish → q.token = s.head →
      Carries s tone room Cursor.IsOver (f p) (g q) R) :
    Carries s tone room start (here >>= f) (here >>= g) R := by
  intro c x c' whole small at_ ran
  rw [Parser.bind_of_ok (here_eq c)] at ran
  by_cases atEnd : c.IsOver
  · have joins := fun q same => last c.next q (whole.over_iff.mp atEnd) same whole small atEnd ran
    have alone := joins ⟨s.head, .start⟩ rfl
    exact ⟨alone.moved, alone.starts, fun d meets =>
      (joins d.next (meets.next_over atEnd)).joined d meets⟩
  · have inner := fun finish => atEnd (whole.over_iff.mpr finish)
    have joins := fun q same => more c.next q same inner whole small atEnd ran
    have alone := joins c.next rfl
    exact ⟨alone.moved, alone.starts,
      fun d meets => (joins d.next (meets.next atEnd)).joined d meets⟩

/-- Passing over tokens, in front of what cannot be doomed before. -/
theorem drop {p : Token → Bool} {a : Parser α} {b : Parser β} (stays : p .finish = false)
    (h : Carries s .tight room anywhere a b R) :
    Carries s .tight room start (modify (Cursor.drop p) >>= fun _ => a)
      (modify (Cursor.drop p) >>= fun _ => b) R := by
  intro c x c' whole small at_ ran
  have first := Cursor.Moved.drop whole stays
  have joins := h (first.whole whole) (Nat.le_trans first.rest.length_le small) trivial ran
  have along : ∀ {new}, (c.drop p).Moved new c' → c.Moved new c' := fun h => by
    simpa [Trace.followedBy] using first.trans h
  obtain ⟨new, y, moved, related⟩ := joins.moved
  refine ⟨⟨new, y, along moved, related⟩, fun _ atEnd => joins.starts rfl (first.isOver atEnd),
    fun d meets below => ?_⟩
  have meets' := meets.drop stays fun atEnd => absurd atEnd (joins.starts rfl)
  refine (joins.joined _ meets' below).imp_right ?_
  rintro ⟨new, y, d', moved, ran, meets, related⟩
  exact ⟨new, y, d', along moved, ran, meets, related⟩

/-- The number of tokens that follow bounds a loop in the whole as well. -/
theorem remaining {f : Nat → Parser α} {g : Nat → Parser β}
    (next : ∀ k k', k ≤ k' → Carries s tone k start (f k) (g k') R) :
    Carries s tone room start (remaining >>= f) (remaining >>= g) R := by
  intro c x c' whole small at_ ran
  have joins := fun k' le => next c.rest.length k' le whole (Nat.le_refl _) at_ ran
  have alone := joins _ (Nat.le_refl _)
  exact ⟨alone.moved, alone.starts, fun d meets => (joins _ meets.length_le).joined d meets⟩

/-! ## Brackets, bodies and names -/

/-- One parser does with other brackets open what the other one does, and closes them again. -/
def Reopens (enter : Nat → Nat) (leave : Nat → Nat → Nat) (a a' : Parser α) : Prop :=
  ∀ c, a' c = (a (c.withBrackets (enter c.brackets))).map fun r =>
    (r.1, r.2.withBrackets (leave c.brackets r.2.brackets))

theorem inside {a' : Parser α} {b' : Parser β} {enter : Nat → Nat} {leave : Nat → Nat → Nat}
    (back : ∀ n, leave n (enter n) = n) (left : Reopens enter leave a a')
    (right : Reopens enter leave b b') (h : Carries s tone room anywhere a b R)
    (sure : tone ≠ .loose) : Carries s tone room start a' b' R := by
  intro c x c' whole small at_ ran
  rw [left c] at ran
  cases inner : a (c.withBrackets (enter c.brackets)) with
  | error fault =>
      rw [inner] at ran
      exact nomatch ran
  | ok r =>
      obtain ⟨z, c₁⟩ := r
      rw [inner] at ran
      have joins :=
        h (c := c.withBrackets (enter c.brackets)) ⟨whole.tokens, whole.names⟩ small trivial
        inner
      obtain ⟨new, y, moved, related⟩ := joins.moved
      have same : leave c.brackets c₁.brackets = c.brackets := by
        rw [moved.brackets]
        exact back _
      obtain ⟨rfl, rfl⟩ : z = x ∧ c₁.withBrackets c.brackets = c' := by
        have ended := Prod.mk.inj (Except.ok.inj ran)
        rwa [same] at ended
      have out : ∀ {new}, (c.withBrackets (enter c.brackets)).Moved new c₁ →
          c.Moved new (c₁.withBrackets c.brackets) := fun moved =>
        ⟨moved.rest, moved.there, moved.used, rfl, moved.names, moved.serial⟩
      refine ⟨⟨new, y, out moved, related⟩, joins.starts, fun d meets below => ?_⟩
      rcases joins.joined _ (meets.withBrackets _) below with
        ⟨loose, -⟩ | ⟨new, y, d₁, moved, ran, meets', related⟩
      · exact absurd loose sure
      · refine .inr ⟨new, y, _, out moved, ?_, meets'.withBrackets c.brackets, related⟩
        have same' : leave c.brackets d₁.brackets = c.brackets := by
          rw [meets'.brackets, moved.brackets]
          exact back _
        rw [right d, meets.brackets, ran]
        exact congrArg (fun n => Except.ok (y, d₁.withBrackets n)) same'

theorem bracketed (h : Carries s tone room anywhere a b R) [sure : Fact (tone ≠ .loose)] :
    Carries s tone room start (bracketed a) (bracketed b) R := by
  have reopens : ∀ {γ : Type} (p : Parser γ),
      Reopens (· + 1) (fun _ n => n - 1) p (Parser.bracketed p) := fun p c => by
    change ((p (c.withBrackets (c.brackets + 1))) >>= fun r => _) = _
    cases p (c.withBrackets (c.brackets + 1)) <;> rfl
  exact h.inside (fun _ => rfl) (reopens a) (reopens b) sure.out

/-- The names of a body are not in view behind it. -/
theorem body (h : Carries s tone room anywhere a b R) [sure : Fact (tone ≠ .loose)] :
    Carries s tone room start (body a) (body b) fun x y new =>
      new.names = [] ∧ ∃ inner, inner.used = new.used ∧ R x y inner := by
  have enters : ∀ {γ : Type} (p : Parser γ) (c : Cursor),
      Parser.body p c = (p c.entered).map fun r => (r.1, r.2.left) := fun p c => by
    change (p c.entered >>= fun r => _) = _
    cases p c.entered <;> rfl
  intro c x c' whole small at_ ran
  rw [enters] at ran
  cases inner : a c.entered with
  | error fault =>
      rw [inner] at ran
      exact nomatch ran
  | ok r =>
      obtain ⟨z, c₁⟩ := r
      rw [inner] at ran
      cases ran
      have joins := h (c := c.entered) ⟨whole.tokens, nofun⟩ small trivial inner
      obtain ⟨new, y, moved, related⟩ := joins.moved
      refine ⟨⟨_, y, moved.left whole, rfl, new, rfl, related⟩, joins.starts,
        fun d meets below => ?_⟩
      have deep : 1 < c₁.names.length := by
        rw [moved.length_names]
        exact Nat.succ_lt_succ (List.length_pos_iff.mpr whole.names)
      rcases joins.joined _ meets.entered below with
        ⟨loose, -⟩ | ⟨new, y, d₁, moved, ran, meets', related⟩
      · exact absurd loose sure.out
      · exact .inr ⟨_, y, _, moved.left whole, by rw [enters, ran]; rfl, meets'.left deep, rfl, new,
          rfl, related⟩

theorem define (name : String) :
    Carries s .still room start (define name) (define name) fun _ _ new => new = ⟨[name], 0⟩ := by
  have bound : ∀ c : Cursor, Parser.define name c =
      .ok ((), c.withNames (c.names.modifyHead (name :: ·))) := fun c => by
    obtain ⟨rest, brackets, names, serial⟩ := c
    cases names <;> rfl
  intro c x c' whole small at_ ran
  rw [bound] at ran
  cases ran
  have moved : c.Moved ⟨[name], 0⟩ (c.withNames (c.names.modifyHead (name :: ·))) :=
    { Cursor.Moved.refl whole with names := rfl }
  refine ⟨⟨_, (), moved, rfl⟩, nofun, fun d meets _ => .inr ⟨_, (), _, moved, bound d, ?_, rfl⟩⟩
  obtain ⟨outer, last, names, names'⟩ := meets.names
  refine ⟨meets.tokens, meets.brackets, ?_, meets.serial, meets.start⟩
  cases outer with
  | nil =>
    exact ⟨[], name :: last, by simp [Cursor.withNames, names], by simp [Cursor.withNames, names']⟩
  | cons innermost outer =>
      exact ⟨(name :: innermost) :: outer, last, by simp [Cursor.withNames, names],
        by simp [Cursor.withNames, names']⟩

/-- A name is in view in the text alone if it is in the whole. -/
theorem sees (name : String) :
    Carries s .still room start (sees s.alone name) (sees s.joint name)
      fun x y new => y = x ∧ new = .nothing := by
  intro c x c' whole small at_ ran
  cases ran
  exact ⟨⟨_, _, .refl whole, rfl, rfl⟩, nofun, fun d meets _ =>
    .inr ⟨_, _, d, .refl whole, rfl, meets, (meets.sees name).symm, rfl⟩⟩

theorem requireRoot (path : Path) (place place' : Position) :
    Carries s .still room start (requireRoot s.alone path place) (requireRoot s.joint path place')
      fun _ _ new => new = .nothing := by
  refine (sees path.root).bind fun x y new same => ?_
  obtain ⟨rfl, rfl⟩ := same
  cases y with
  | true => exact pure rfl
  | false => exact of_fails fun _ _ ran => nomatch ran

end Carries

/-! ## Trees -/

namespace Parser

theorem value?_renumber {ρ : Nat → Nat} (t : Tree) :
    (t.renumber ρ).value? = t.value?.map (Value.renumber ρ) := by
  cases t <;> rfl

theorem values?_renumber {ρ : Nat → Nat} (ts : List Tree) :
    (ts.map (Tree.renumber ρ)).mapM Tree.value? =
      (ts.mapM Tree.value?).map (List.map (Value.renumber ρ)) := by
  induction ts with
  | nil => rfl
  | cons t ts ih =>
      simp only [List.map_cons, List.mapM_cons, value?_renumber, ih]
      cases t.value? with
      | none => rfl
      | some v => cases ts.mapM Tree.value? <;> rfl

/-- Literals bind no names. -/
theorem bindsAll_of_values {ts : List Tree} {vs : List Value} (h : ts.mapM Tree.value? = some vs) :
    Tree.bindsAll ts = [] := by
  induction ts generalizing vs with
  | nil => rfl
  | cons t ts ih =>
      rw [List.mapM_cons] at h
      cases t with
      | literal v =>
          cases rest : ts.mapM Tree.value? with
          | none =>
              rw [rest] at h
              exact nomatch h
          | some ws => rw [Tree.bindsAll, ih rest, Tree.binds_literal, List.nil_append]
      | reference path => exact nomatch h
      | call head args => exact nomatch h

end Parser

section Trees

variable (s : Seam)

/-- The same trees with other numbers, and the names that they bind. -/
structure Copies (ts us : List Tree) (new : Trace) : Prop where
  trees : us = ts.map (Tree.renumber s.numbers)
  names : ∀ name, name ∈ new.names ↔ name ∈ Tree.bindsAll ts

/-- The same tree with other numbers, and the names that it binds. -/
structure Copy (t u : Tree) (new : Trace) : Prop where
  tree : u = t.renumber s.numbers
  names : ∀ name, name ∈ new.names ↔ name ∈ t.binds

/-- A tree, for which tokens have been used up. -/
structure Taken (t u : Tree) (new : Trace) : Prop extends Copy s t u new where
  used : 0 < new.used

variable {s} {t u : Tree} {ts us : List Tree} {new new' all : Trace}

theorem Copies.nil (none : new.names = []) : Copies s [] [] new :=
  ⟨rfl, fun name => by simp [none, Tree.bindsAll]⟩

theorem Copies.cons (first : Copy s t u new) (rest : Copies s ts us new')
    (names : all.names = new'.names ++ new.names) : Copies s (t :: ts) (u :: us) all :=
  ⟨by rw [first.tree, rest.trees, List.map_cons], fun name => by
    rw [names, List.mem_append, rest.names, first.names, Tree.bindsAll, List.mem_append]⟩

theorem Copies.one (first : Copy s t u new) (names : all.names = new.names) :
    Copies s [t] [u] all :=
  .cons first (Copies.nil (show Trace.nothing.names = [] from rfl)) names

theorem Copies.mono (h : Copies s ts us new) (names : all.names = new.names) :
    Copies s ts us all :=
  ⟨h.trees, fun name => by rw [names, h.names]⟩

theorem Copies.length_eq (h : Copies s ts us new) : us.length = ts.length := by
  rw [h.trees, List.length_map]

theorem Copy.mono (h : Copy s t u new) (names : all.names = new.names) : Copy s t u all :=
  ⟨h.tree, fun name => by rw [names, h.names]⟩

theorem Copy.literal {v w : Value} (same : w = v.renumber s.numbers) (none : new.names = []) :
    Copy s (.literal v) (.literal w) new :=
  ⟨by rw [same, Tree.renumber], fun name => by simp [none, Tree.binds]⟩

theorem Copy.reference (path : Path) (none : new.names = []) :
    Copy s (.reference path) (.reference path) new :=
  ⟨by rw [Tree.renumber], fun name => by simp [none, Tree.binds]⟩

theorem Copy.call (args : Copies s ts us new) {head : Head} (none : head.binds = []) :
    Copy s (.call head ts) (.call head us) new :=
  ⟨by rw [args.trees, Tree.renumber, Tree.renumberAll_eq], fun name => by
    rw [args.names, Tree.binds, none, List.append_nil]⟩

theorem Copy.bind {name : String} (value : Copy s t u new)
    (names : all.names = new.names ++ [name]) :
    Copy s (.bind name t) (.bind name u) all :=
  ⟨by rw [value.tree, Tree.bind, Tree.bind, Tree.renumber, Tree.renumberAll_eq]; rfl,
    fun other => by
    simp [names, value.names, Tree.bind, Tree.binds, Tree.bindsAll, Head.binds]⟩

/-- A function binds no names where it is made. -/
theorem Copy.closure (params : List String) (body : Copy s t u new) (none : all.names = []) :
    Copy s (.literal (.closure params t Option.none)) (.literal (.closure params u Option.none))
      all :=
  .literal (by rw [Value.renumber, body.tree]) none

theorem Copies.list (items : Copies s ts us new) : Copy s (list ts) (list us) new := by
  unfold Parser.list
  rw [items.trees, values?_renumber]
  cases known : ts.mapM Tree.value? with
  | none => exact items.trees ▸ .call items rfl
  | some vs =>
      refine ⟨by simp [Tree.renumber, Value.renumber], fun name => ?_⟩
      rw [items.names, bindsAll_of_values known]
      rfl

namespace Carries

theorem reference (path : Path) (place place' : Position) :
    Carries s .still room start (reference s.alone path place) (reference s.joint path place')
      fun t u new => Copy s t u new ∧ new.names = [] :=
  (requireRoot path place place').bind fun _ _ new none =>
    pure ⟨.reference path (by rw [none]; rfl), by rw [none]; rfl⟩

/-- A call of what is in view, or an instance, which gets the number that it has in the whole. -/
theorem call (path : Path) (place place' : Position) (args : Copies s ts us all) :
    Carries s .still room start (call s.alone path ts place) (call s.joint path us place')
      fun t u new => Copy s t u all ∧ new.names = [] := by
  refine (sees path.root).bind fun x y new same => ?_
  obtain ⟨rfl, rfl⟩ := same
  rw [s.registry]
  split
  · rw [args.trees, values?_renumber, ← args.trees]
    cases known : ts.mapM Tree.value? with
    | none => exact pure ⟨.call args rfl, rfl⟩
    | some vs =>
        have none : all.names = [] := by
          refine List.eq_nil_iff_forall_not_mem.mpr fun name mem => ?_
          rw [args.names, bindsAll_of_values known] at mem
          exact nomatch mem
        intro c t c' whole small at_ ran
        obtain ⟨_, _, got, ran⟩ := ok_of_bind ran
        cases got
        cases made : s.alone.registry.decode path.root vs c.serial with
        | error fault =>
            rw [made] at ran
            cases fault <;> exact nomatch ran
        | ok v =>
            rw [made] at ran
            cases ran
            have moved : c.Moved .nothing { c with serial := c.serial + 1 } :=
              { Cursor.Moved.refl whole with serial := Nat.le_succ _ }
            refine ⟨⟨_, _, moved, .literal rfl none, rfl⟩, nofun, fun d meets below => ?_⟩
            have number : s.numbers c.serial = d.serial := by
              have shifted := s.window c.serial meets.start below
              have := meets.serial
              omega
            have made' := s.uniform.decode s.injective path.root vs c.serial
            rw [made, number] at made'
            refine .inr ⟨_, .literal (v.renumber s.numbers),
              { d with serial := d.serial + 1 }, moved, ?_,
              ⟨meets.tokens, meets.brackets, meets.names, ?_, Nat.le_succ_of_le meets.start⟩,
              .literal rfl none, rfl⟩
            · refine (Parser.bind_of_ok (p := (get : Parser Cursor)) rfl).trans ?_
              rw [made']
              rfl
            · change c.serial + 1 = d.serial + 1 + s.shift
              have := meets.serial
              omega
  · exact (requireRoot path place place').bind fun _ _ new none =>
      pure ⟨.call args rfl, by rw [none]; rfl⟩

end Carries

end Trees

end PeerScript.Script
