import PeerScript.Proofs.Messages.Listings

/-!
# Statements in front of other statements

In the language of statements a line end closes what is open at the top of a script, and means
nothing inside of parentheses and brackets.  So a parser that has come to the end of a text may be
doomed there, but not behind a closing mark, nor at the top of the script.
-/

set_option autoImplicit false

namespace PeerScript.Script.Rho

open Text (Position)
open PeerScript.Script.Parser

/-- A seam between statements: the end of a line, or the end of the script. -/
structure IsSeam (s : Seam) : Prop where
  sharp : s.isSharp = true → s.head = .newline
  blunt : s.isSharp = false → s.head = .finish

variable {s : Seam} {room : Nat} {start : Cursor → Prop}

theorem IsSeam.cases (seam : IsSeam s) : s.head = .newline ∨ s.head = .finish := by
  cases known : s.isSharp with
  | true => exact .inl (seam.sharp known)
  | false => exact .inr (seam.blunt known)

theorem IsSeam.ne (seam : IsSeam s) (mark : Symbol) : s.head ≠ .symbol mark := by
  rcases seam.cases with same | same <;> rw [same] <;> exact nofun

/-! ## What is closed -/

/-- Up to the end of the text, `b` reads of the whole what `a` reads of the text alone. -/
def Precedes {α β : Type} (s : Seam) (room : Nat) (a : Parser α) (b : Parser β)
    (R : α → β → Trace → Prop) : Prop :=
  ∀ ⦃c x c'⦄, c.IsWhole → c.rest.length ≤ room → a c = .ok (x, c') →
    (∃ new y, c.Moved new c' ∧ R x y new) ∧
      (¬ c'.IsOver → ∀ d, s.Meets c d → c'.serial ≤ s.limit →
        ∃ new y d', c.Moved new c' ∧ b d = .ok (y, d') ∧ s.Meets c' d' ∧ R x y new)

/-- What must be closed is not at the end of the text. -/
theorem Precedes.close {α β γ δ : Type} {a : Parser α} {b : Parser β} {f : α → Parser γ}
    {g : β → Parser δ} {R : α → β → Trace → Prop} {S : γ → δ → Trace → Prop}
    (first : Precedes s room a b R)
    (next : ∀ x y new, R x y new → Carries s .tight room anywhere (f x) (g y)
      fun z w new' => S z w (new.followedBy new')) :
    Carries s .tight room start (a >>= f) (b >>= g) S := by
  intro c z c'' whole small at_ ran
  obtain ⟨x, c', ran, ran'⟩ := ok_of_bind ran
  obtain ⟨⟨new, y, moved, related⟩, inner⟩ := first whole small ran
  have small' := Nat.le_trans moved.rest.length_le small
  have joins := next x y new related (moved.whole whole) small' trivial ran'
  obtain ⟨new', w, moved', related'⟩ := joins.moved
  have more : ¬ c'.IsOver := joins.starts rfl
  refine ⟨⟨_, w, moved.trans moved', related'⟩, fun _ atEnd => more (moved.isOver atEnd),
    fun d meets below => ?_⟩
  obtain ⟨new, y, d', moved, read, meets', related⟩ :=
    inner more d meets (Nat.le_trans moved'.serial below)
  have joins := next x y new related (moved.whole whole) small' trivial ran'
  rcases joins.joined d' meets' below with ⟨loose, -⟩
      | ⟨new', w, d'', moved', read', meets'', right⟩
  · cases loose
  · exact .inr ⟨_, w, d'', moved.trans moved', by rw [bind_of_ok read]; exact read', meets'', right⟩

/-- What the readers for the parts of a term read of a text alone, those of the other storey read of
the whole. -/
structure Inner.Carries (s : Seam) (inner inner' : Inner) : Prop where
  expression : ∀ levels room,
    Script.Carries s .loose room anywhere (inner.expression levels)
      (inner'.expression levels) (Taken s)
  unary : ∀ levels room,
    Script.Carries s .loose room anywhere (inner.unary levels) (inner'.unary levels) (Taken s)
  statements : ∀ levels room,
    Precedes s room (inner.statements levels .brace) (inner'.statements levels .brace) (Copies s)

theorem nested_carries {p p' : Nat → Parser Tree} {tone : Tone} {R : Tree → Tree → Trace → Prop}
    (h : ∀ levels, Carries s tone room start (p levels) (p' levels) R) :
    ∀ levels, Carries s tone room start (nested p levels) (nested p' levels) R
  | 0 => .of_fails (.after (fun _ => fails_complainAt _ _) _)
  | levels + 1 => h levels

section Parts

variable (seam : IsSeam s) {expression expression' : Parser Tree}
  (expressions : ∀ room, Carries s .loose room anywhere expression expression' (Taken s))

include seam

include expressions in
theorem expressionList_carries (close : Symbol) {k k' : Nat} (le : k ≤ k') :
    Carries s .tight room start (expressionList expression close k)
      (expressionList expression' close k') (Copies s) := by
  induction k generalizing k' room start with
  | zero => exact .of_fails (fails_complain _)
  | succ k ih =>
      obtain ⟨k', rfl⟩ := Nat.exists_eq_add_one_of_ne_zero (Nat.ne_zero_of_lt le)
      refine .check (seam.ne close) (.takeLast fun _ _ _ _ => .pure (.nil rfl)) ?_
      refine .peek (fun t more => ?_) (.of_fails (fails_complain _))
      have rest : ∀ {first first' : Tree} {new new' : Trace} {room : Nat} {start : Cursor → Prop},
          Taken s first first' new → new'.names = [] →
          Carries s .tight room start
            (do
              let rest ← expressionList expression close k
              return first :: rest)
            (do
              let rest ← expressionList expression' close k'
              return first' :: rest)
            fun ts us new'' => Copies s ts us (new.followedBy (new'.followedBy new'')) := by
        intro first first' new new' room start read none
        refine (ih (Nat.le_of_succ_le_succ le)).done fun ts us new'' others => ?_
        exact .pure (.cons read.toCopy others (by simp [none]))
      have next : Carries s .tight room (Cursor.IsAt t)
          (do
            let first ← expression
            if ← check .comma then
              let _ ← advance
            else unless ← check close do
              complain (.expected "',' or closing delimiter" (← peek))
            let rest ← expressionList expression close k
            return first :: rest)
          (do
            let first ← expression'
            if ← check .comma then
              let _ ← advance
            else unless ← check close do
              complain (.expected "',' or closing delimiter" (← peek))
            let rest ← expressionList expression' close k'
            return first :: rest) (Copies s) := by
        refine (expressions _).from_anywhere.bind fun first first' new read => ?_
        refine .check (seam.ne .comma) (.take fun _ _ _ _ => rest read rfl) ?_
        refine .check (seam.ne close) ?_ ?_
        · refine (@rest _ _ _ .nothing _ _ read rfl).mono fun ts us new' copies => ?_
          exact copies.mono (by simp)
        · exact .of_fails (.after (fun _ => .before (fails_complain _) _) _)
      cases t <;> first | exact next | exact absurd rfl more

omit expressions in
theorem members_carries (place place' : Position) {k k' : Nat} (le : k ≤ k') :
    Carries s .loose k start (members place k) (members place' k')
      fun x y new => y = x ∧ new.names = [] := by
  induction k generalizing k' start with
  | zero => exact .of_nothing
  | succ k ih =>
      obtain ⟨k', rfl⟩ := Nat.exists_eq_add_one_of_ne_zero (Nat.ne_zero_of_lt le)
      refine .check (seam.ne .dot) (.take fun _ _ _ _ => ?_) (.pure ⟨rfl, rfl⟩)
      refine .advance_more (fun p last => ?_) fun t more =>
        .take_of_ne more fun p q known known' => ?_
      · rw [last]
        exact fails_complainAt _ _
      · rw [known, known']
        split
        · refine ((ih (Nat.le_of_succ_le_succ le)).within (Nat.sub_le _ _)).bind
            fun x y new rest => .pure ⟨?_, ?_⟩
          · rw [rest.1]
          · simp [rest.2]
        · exact .of_fails (fails_complainAt _ _)

include expressions in
theorem path_carries (first : String) (place place' : Position) :
    Carries s .loose room start (path s.alone expression first place)
      (path s.joint expression' first place') (Copy s) := by
  refine .remaining fun k k' le => ?_
  refine (members_carries seam place place' le).bind fun x y new names => ?_
  rw [names.1]
  have read : ∀ {room start}, Carries s .loose room start
      (reference s.alone ⟨first :: x⟩ place) (reference s.joint ⟨first :: x⟩ place')
      fun t u new' => Copy s t u (new.followedBy new') := fun {_ _} =>
    (Carries.reference _ place place').loosen.mono fun t u new' read =>
      read.1.mono (by simp [names.2, read.2])
  refine .check (seam.ne .lParen) (.take fun _ _ _ _ => ?_) read
  have args : ∀ room, Carries s .tight room anywhere
      (do expressionList expression .rParen (← remaining))
      (do expressionList expression' .rParen (← remaining)) (Copies s) := fun _ =>
    .remaining fun k k' le => expressionList_carries seam expressions .rParen le
  refine (args _).bracketed.bind fun ts us new' operands => ?_
  refine (Carries.call _ place place' operands).loosen.mono fun t u new'' called => ?_
  exact called.1.mono (by simp [names.2, called.2])

omit expressions in
theorem parameters_carries {k k' : Nat} (le : k ≤ k') :
    Carries s .tight room start (parameters k) (parameters k') fun x y _ => y = x := by
  induction k generalizing k' room start with
  | zero => exact .of_fails (.after (fun _ => fails_complain _) _)
  | succ k ih =>
      obtain ⟨k', rfl⟩ := Nat.exists_eq_add_one_of_ne_zero (Nat.ne_zero_of_lt le)
      refine .advance_more (fun p last => ?_) fun t more => ?_
      · rw [last]
        exact fails_complain _
      · by_cases closes : t = .symbol .rParen
        · subst closes
          refine .takeLast fun p q known known' => ?_
          rw [known, known']
          exact .pure rfl
        · refine .take_of_ne more fun p q known known' => ?_
          rw [known, known']
          split
          · exact absurd rfl closes
          · rename_i name
            refine (Carries.define name).bind fun _ _ _ _ => ?_
            have rest : ∀ {room start}, Carries s .tight room start
                (do
                  let rest ← parameters k
                  return name :: rest)
                (do
                  let rest ← parameters k'
                  return name :: rest) fun x y _ => y = x := fun {_ _} =>
              (ih (Nat.le_of_succ_le_succ le)).done fun x y _ same => .pure (by rw [same])
            exact .check (seam.ne .comma) (.take fun _ _ _ _ => rest) rest
          · exact .of_fails (fails_complain _)

end Parts

/-! ## Functions -/

/-- The statements of a body and the brace that closes them, with the brackets as they are. -/
def closed (statements : Closing → Parser (List Tree)) : Parser Tree := do
  let body ← statements .brace
  if ← check .rBrace then
    let _ ← advance
    return .sequence body
  else complain (.unclosed "\x7b")

theorem reopens_block (statements : Closing → Parser (List Tree)) :
    Carries.Reopens (fun _ => 0) (fun outside _ => outside) (closed statements)
      (block statements) := by
  intro c
  have entered : block statements c = (do
      let body ← statements .brace
      if ← check .rBrace then
        let _ ← advance
        modify fun d => { d with brackets := c.brackets }
        return .sequence body
      else complain (.unclosed "\x7b") : Parser Tree) (c.withBrackets 0) := rfl
  rw [entered, closed]
  cases read : statements .brace (c.withBrackets 0) with
  | error fault =>
      change Except.bind _ _ = Except.map _ (Except.bind _ _)
      rw [read]
      rfl
  | ok r =>
      obtain ⟨body, c₁⟩ := r
      rw [bind_of_ok read, bind_of_ok read, check_bind, check_bind, bind_of_ok (peek_eq c₁),
        bind_of_ok (peek_eq c₁)]
      cases Token.isSymbol .rBrace c₁.settled.next.token <;> rfl

section Bodies

variable (seam : IsSeam s) {statements statements' : Closing → Parser (List Tree)}
  (bodies : ∀ room, Precedes s room (statements .brace) (statements' .brace) (Copies s))

include seam bodies

theorem block_carries : Carries s .tight room start (block statements) (block statements')
    fun t u _ => ∃ inner, Copy s t u inner := by
  have inside : ∀ room, Carries s .tight room anywhere (closed statements) (closed statements')
      fun t u _ => ∃ inner, Copy s t u inner := by
    intro room
    refine (bodies room).close fun ts us new body => ?_
    refine .check (seam.ne .rBrace) (.takeLast fun _ _ _ _ => ?_) (.of_fails (fails_complain _))
    exact .pure ⟨new, .call body rfl⟩
  exact (inside _).inside (fun _ => rfl) (reopens_block statements) (reopens_block statements')
    (by decide)

/-- A function of which the parameters have been read. -/
theorem closure_carries (params : List String) : Carries s .tight room start
    (do return .literal (.closure params (← block statements) none))
    (do return .literal (.closure params (← block statements') none))
    fun t u _ => Copy s t u .nothing := by
  refine (block_carries seam bodies).done fun t u new body => .pure ?_
  obtain ⟨inner, body⟩ := body
  exact body.closure params rfl

theorem function_carries : Carries s .tight room start (function statements) (function statements')
    fun t u new => Copy s t u .nothing ∧ new.names = [] ∧ 0 < new.used := by
  have inside : ∀ room, Carries s .tight room anywhere
      (do
        let params ← bracketed (do parameters (← remaining))
        expect .lBrace "'\x7b'"
        return .literal (.closure params (← block statements) none))
      (do
        let params ← bracketed (do parameters (← remaining))
        expect .lBrace "'\x7b'"
        return .literal (.closure params (← block statements') none))
      fun t u _ => Copy s t u .nothing := by
    intro room
    have params : Carries s .tight room anywhere (do parameters (← remaining))
        (do parameters (← remaining)) fun x y _ => y = x :=
      .remaining fun k k' le => parameters_carries seam le
    refine params.bracketed.bind fun x y new same => ?_
    rw [same]
    exact (Carries.expect (seam.ne .lBrace) _).bind fun _ _ _ _ => closure_carries seam bodies x
  refine (Carries.expect (seam.ne .lParen) _).bind fun _ _ new opened => ?_
  refine (inside _).body.mono fun t u new' read => ?_
  obtain ⟨none, _, -, read⟩ := read
  exact ⟨read, by simp [none, opened], by rw [opened]; exact Nat.add_pos_left Nat.one_pos _⟩

end Bodies

/-! ## What looks further -/

variable {α β : Type} {tone : Tone} {R : α → β → Trace → Prop}

/-- Looking at the token behind the next one.  A parser that uses tokens up has not begun at the end
of the text. -/
theorem second_carries {f : Option Token → Parser α} {g : Option Token → Parser β}
    (uses : ∀ x y new, R x y new → 0 < new.used)
    (more : ∀ t, t ≠ .finish → Carries s tone room start (f (some t)) (g (some t)) R)
    (last : Carries s tone room start (f (some .finish)) (g (some s.head)) R)
    (ended : Carries s tone room start (f none) (g none) R) :
    Carries s tone room start
      ((get : Parser Cursor) >>= fun c => f ((c.rest.drop 1).head?.map Placed.token))
      ((get : Parser Cursor) >>= fun c => g ((c.rest.drop 1).head?.map Placed.token)) R := by
  have found : ∀ c : Cursor, (c.rest.drop 1).head?.map Placed.token = (c.tokens.drop 1).head? :=
    fun c => by rw [Cursor.tokens, ← List.map_drop, List.head?_map]
  intro c x c' whole small at_ ran
  change f _ c = _ at ran
  rw [found] at ran
  -- in the whole the second token is the same one, or it is the first one of the edge
  have joins : ∀ t t' : Option Token, (c.tokens.drop 1).head? = t →
      (∀ d, s.Meets c d → (d.tokens.drop 1).head? = t') →
      Carries s tone room start (f t) (g t') R → Joins s tone
        ((get : Parser Cursor) >>= fun c => g ((c.rest.drop 1).head?.map Placed.token))
        (R x) c c' := by
    intro t t' here there carries
    have joins := carries whole small at_ (here ▸ ran)
    refine ⟨joins.moved, joins.starts, fun d meets below => ?_⟩
    have same : (d.rest.drop 1).head?.map Placed.token = t' := by rw [found, there d meets]
    change _ ∨ ∃ new y d', _ ∧ g ((d.rest.drop 1).head?.map Placed.token) d = _ ∧ _
    rw [same]
    exact joins.joined d meets below
  obtain ⟨before, same, none⟩ := whole.tokens
  have whole' : ∀ d, s.Meets c d → d.tokens = before ++ s.edge := fun d meets => by
    obtain ⟨before', same', -, joint⟩ := meets.tokens
    rw [joint, (List.append_inj' (same.symm.trans same') rfl).1]
  rcases before with _ | ⟨first, _ | ⟨second, before⟩⟩
  · have atEnd : c.IsOver := by rw [Cursor.IsOver, ← c.tokens_length, same]; rfl
    have alone : (c.tokens.drop 1).head? = Option.none := by rw [same]; rfl
    obtain ⟨new, y, moved, related⟩ := (ended whole small at_ (alone ▸ ran)).moved
    exact absurd atEnd (moved.not_over (uses _ _ _ related))
  · refine joins (some .finish) (some s.head) (by rw [same]; rfl) (fun d meets => ?_) last
    rw [whole' d meets, Seam.head]
    cases known : s.edge with
    | nil => exact absurd known s.edge_ne
    | cons t edge => rfl
  · have inner : second ≠ .finish := fun last => none (by rw [last]; simp)
    refine joins (some second) (some second) (by rw [same]; rfl) (fun d meets => ?_)
      (more second inner)
    rw [whole' d meets]
    rfl

/-- Taking whatever comes next, in front of what uses tokens up. -/
theorem skip_carries {f : Placed → Parser α} {g : Placed → Parser β}
    (uses : ∀ x y new, R x y new → 0 < new.used)
    (next : ∀ room p q, Carries s tone room anywhere (f p) (g q) R)
    {S : α → β → Trace → Prop} (le : ∀ x y new, R x y new → S x y (Trace.token.followedBy new)) :
    Carries s tone room start (advance >>= f) (advance >>= g) S := by
  intro c x c' whole small at_ ran
  have follows := ran
  rw [bind_of_ok (advance_eq c)] at follows
  have first := Cursor.Moved.settled whole
  have inner : c.settled.next.token ≠ .finish := by
    intro last
    have atEnd := (first.whole whole).over_iff.mpr last
    have stays : c.settled.behind = c.settled := by
      unfold Cursor.behind
      split
      · rename_i more
        rw [Cursor.IsOver, more] at atEnd
        cases atEnd
      · rfl
    rw [stays] at follows
    obtain ⟨new, y, moved, related⟩ :=
      (next _ _ c.settled.next (first.whole whole) (Nat.le_refl _) trivial follows).moved
    exact moved.not_over (uses _ _ _ related) atEnd
  have carries : Carries s tone room (Cursor.IsAt c.settled.next.token) (advance >>= f)
      (advance >>= g) S :=
    .take_of_ne inner fun p q _ _ => (next _ p q).mono le
  exact carries whole small rfl ran

/-- A statement of which the second token is known. -/
def statementBefore (ctx : Context) (inner : Inner) (levels : Nat) (second : Option Token) :
    Parser Tree := do
  match ← peek, second with
  | .name first, some (.name name) =>
      if first = keyword then
        let _ ← advance
        let _ ← advance
        define name
        return .bind name (← function (inner.statements levels))
      else expression ctx inner levels
  | .name name, some (.symbol .assign) =>
      let _ ← advance
      let _ ← advance
      define name
      return .bind name (← expression ctx inner levels)
  | _, _ => expression ctx inner levels

theorem statement_eq (ctx : Context) (inner : Inner) (levels : Nat) :
    statement ctx inner levels = ((get : Parser Cursor) >>= fun c =>
      statementBefore ctx inner levels ((c.rest.drop 1).head?.map Placed.token)) := rfl

/-! ## Expressions -/

/-- The negation of a numeral is one in the whole as well. -/
theorem negated_copy {t u : Tree} {new : Trace} (h : Copy s t u new) :
    Copy s (negated t) (negated u) new := by
  obtain ⟨rfl, names⟩ := h
  have operand : ∀ t : Tree, (∀ name, name ∈ new.names ↔ name ∈ t.binds) →
      Copy s (.op .neg [t]) (.op .neg [t.renumber s.numbers]) new := fun t names =>
    .call (.one ⟨rfl, names⟩ rfl) rfl
  cases t with
  | literal v =>
      cases v with
      | int value => exact ⟨by simp [negated, Tree.renumber, Value.renumber], names⟩
      | float value => exact ⟨by simp [negated, Tree.renumber, Value.renumber], names⟩
      | _ => simpa [negated, Tree.renumber, Value.renumber] using operand _ names
  | reference path => simpa [negated, Tree.renumber] using operand _ names
  | call head args => simpa [negated, Tree.renumber] using operand _ names

section Storey

variable (seam : IsSeam s) {inner inner' : Inner} (inners : inner.Carries s inner')

include seam inners

theorem primary_carries (levels : Nat) : Carries s .loose room start
    (primary s.alone inner levels) (primary s.joint inner' levels) (Taken s) := by
  have taken : ∀ {t u : Tree} {new : Trace}, Copy s t u new →
      Taken s t u (Trace.token.followedBy new) := fun read =>
    ⟨read.mono (by simp), by simp only [Trace.used_followedBy, Trace.used_token]; omega⟩
  have literal : ∀ {v : Value} {new : Trace}, v.marks = [] → new.names = [] →
      Copy s (.literal v) (.literal v) new := fun plain none =>
    .literal (Value.renumber_of_marks plain).symm none
  have inside := inners.expression levels
  refine .advance_more (fun p last => ?_) fun t more => .take_of_ne more fun p q known known' => ?_
  · rw [last]
    exact fails_complainAt _ _
  rw [known, known']
  refine Carries.mono ?_ fun t u new => taken
  split
  · exact .pure (literal rfl rfl)
  · exact .pure (literal rfl rfl)
  · exact .pure (literal rfl rfl)
  · exact .pure (literal rfl rfl)
  · exact .pure (literal rfl rfl)
  · split
    · exact (function_carries seam (inners.statements levels)).loosen.mono fun t u new read =>
        read.1.mono read.2.1
    · exact path_carries seam inside _ _ _
  · refine Carries.loosen (?_ : Carries s .tight _ _ _ _ _)
    refine Carries.bracketed ?_
    refine (inside _).bind fun t u new read => ?_
    refine (Carries.expect (seam.ne .rParen) _).done fun _ _ new' closed => .pure ?_
    exact read.toCopy.mono (by simp [closed])
  · have items : ∀ room, Carries s .tight room anywhere
        (do expressionList (inner.expression levels) .rBracket (← remaining))
        (do expressionList (inner'.expression levels) .rBracket (← remaining)) (Copies s) :=
          fun _ =>
      .remaining fun k k' le => expressionList_carries seam inside .rBracket le
    exact (items _).bracketed.bind fun ts us new items => .pure items.list
  · refine (closure_carries seam (inners.statements levels) []).body.loosen.mono
      fun t u new read => ?_
    obtain ⟨none, _, -, read⟩ := read
    exact read.mono none
  · exact .of_fails (fails_complainAt _ _)

theorem unary_carries (levels : Nat) : Carries s .loose room start
    (unary s.alone inner levels) (unary s.joint inner' levels) (Taken s) := by
  have operand : ∀ room, Carries s .loose room anywhere (nested inner.unary levels)
      (nested inner'.unary levels) (Taken s) := fun room =>
    nested_carries (fun levels => inners.unary levels room) levels
  refine .peek (fun t more => ?_) ?_
  · split
    · refine .take fun _ _ _ _ => (operand _).bind fun t u new read => .pure ⟨?_, ?_⟩
      · exact .call (.one read.toCopy (by simp)) rfl
      · exact Nat.lt_of_lt_of_le Nat.one_pos (Nat.le_add_right 1 _)
    · refine .take fun _ _ _ _ => (operand _).bind fun t u new read => .pure ⟨?_, ?_⟩
      · exact (negated_copy read.toCopy).mono (by simp)
      · exact Nat.lt_of_lt_of_le Nat.one_pos (Nat.le_add_right 1 _)
    · exact primary_carries seam inners levels
  · have bang := seam.ne .bang
    have minus := seam.ne .minus
    generalize s.head = edge at bang minus
    dsimp only
    split
    · exact absurd rfl bang
    · exact absurd rfl minus
    · exact primary_carries seam inners levels

omit inners in
theorem chain_carries (operators : List (Symbol × Operator)) {operand operand' : Parser Tree}
    (operands : ∀ room, Carries s .loose room anywhere operand operand' (Taken s)) {k k' : Nat}
    (le : k ≤ k') {t u : Tree} {new : Trace} (left : Taken s t u new) :
    Carries s .loose k start (chain operators operand k t) (chain operators operand' k' u)
      fun t u new' => Taken s t u (new.followedBy new') := by
  induction k generalizing k' start t u new with
  | zero => exact .of_nothing
  | succ k ih =>
      obtain ⟨k', rfl⟩ := Nat.exists_eq_add_one_of_ne_zero (Nat.ne_zero_of_lt le)
      have stop : ∀ {room start}, Carries s .loose room start (Pure.pure t) (Pure.pure u)
          fun t u new' => Taken s t u (new.followedBy new') :=
            fun {_ _} => .pure (by simpa using left)
      refine .peek (fun token more => ?_) ?_
      · split
        · exact stop
        · rename_i operator _
          refine .take_of_ne more fun _ _ _ _ => (operands _).bind fun t' u' new' right => ?_
          have both : Taken s (.op operator [t, t']) (.op operator [u, u'])
              (new.followedBy (Trace.token.followedBy new')) :=
            ⟨.call (.cons left.toCopy (.one right.toCopy rfl) (by simp)) rfl,
              Nat.lt_of_lt_of_le left.used (Nat.le_add_right _ _)⟩
          refine ((ih (Nat.le_of_succ_le_succ le) both).within (Nat.sub_le _ _)).mono ?_
          intro t u new'' all
          rwa [Trace.followedBy_assoc, Trace.followedBy_assoc] at all
      · have none : operatorOf? operators s.head = none := by
          rcases seam.cases with same | same <;> rw [same] <;> rfl
        rw [none]
        exact stop

omit inners in
theorem binary_carries {operand operand' : Parser Tree}
    (operands : ∀ room, Carries s .loose room anywhere operand operand' (Taken s)) :
    ∀ (levels : List (List (Symbol × Operator))) (room : Nat), Carries s .loose room anywhere
      (binary operand levels) (binary operand' levels) (Taken s)
  | [], room => operands room
  | operators :: tighter, room => by
      have tight := binary_carries operands tighter
      refine (tight room).bind fun t u new first => ?_
      exact .remaining fun k k' le => chain_carries seam operators tight le first

theorem expression_carries (levels : Nat) : Carries s .loose room start
    (expression s.alone inner levels) (expression s.joint inner' levels) (Taken s) :=
  (nested_carries (fun levels => binary_carries seam
    (fun _ => unary_carries seam inners levels) precedence room) levels).from_anywhere

theorem statement_carries (levels : Nat) : Carries s .loose room start
    (statement s.alone inner levels) (statement s.joint inner' levels) (Taken s) := by
  have bind : ∀ (name : String) {value value' : Parser Tree} {room start},
      (∀ room, Carries s .loose room anywhere value value'
        fun t u new => Copy s t u new ∧ 0 < new.used) →
      Carries s .loose room start
        (do
          let _ ← advance
          let _ ← advance
          define name
          return .bind name (← value))
        (do
          let _ ← advance
          let _ ← advance
          define name
          return .bind name (← value')) (Taken s) := by
    intro name value value' room start read
    have bound : ∀ room, Carries s .loose room anywhere
        (do
          define name
          return .bind name (← value))
        (do
          define name
          return .bind name (← value')) (Taken s) := fun room => by
      refine (Carries.define name).bind fun _ _ new named => ?_
      refine (read _).bind fun t u new' value => .pure ⟨value.1.bind (by simp [named]), ?_⟩
      exact Nat.lt_of_lt_of_le value.2 (Nat.le_add_left _ _)
    have more : ∀ {t u : Tree} {new : Trace}, Taken s t u new →
        Taken s t u (Trace.token.followedBy new) := fun taken =>
      ⟨taken.toCopy.mono (by simp), Nat.add_pos_left Nat.one_pos _⟩
    refine skip_carries (fun _ _ _ taken => taken.used) (fun room _ _ => ?_) fun _ _ _ => more
    exact skip_carries (fun _ _ _ taken => taken.used) (fun room _ _ => bound room)
      fun _ _ _ => more
  have plain : ∀ {room start}, Carries s .loose room start (expression s.alone inner levels)
      (expression s.joint inner' levels) (Taken s) :=
        fun {_ _} => expression_carries seam inners levels
  have body : ∀ room, Carries s .loose room anywhere (function (inner.statements levels))
      (function (inner'.statements levels)) fun t u new => Copy s t u new ∧
      0 < new.used := fun room =>
    (function_carries seam (inners.statements levels)).loosen.mono fun t u new read =>
      ⟨read.1.mono read.2.1, read.2.2⟩
  have value : ∀ room, Carries s .loose room anywhere (expression s.alone inner levels)
      (expression s.joint inner' levels) fun t u new => Copy s t u new ∧ 0 < new.used := fun room =>
    plain.mono fun t u new taken => ⟨taken.toCopy, taken.used⟩
  -- at the edge there is neither a name nor a binding
  have edge : ∀ second, (∀ name, second ≠ some (.name name)) → second ≠ some (.symbol .assign) →
      ∀ ctx inner, statementBefore ctx inner levels second =
        (peek >>= fun _ => expression ctx inner levels) := by
    intro second unnamed free ctx inner
    unfold statementBefore
    refine congrArg (peek >>= ·) (funext fun t => ?_)
    split
    · exact absurd rfl (unnamed _)
    · exact absurd rfl free
    · rfl
  rw [statement_eq, statement_eq]
  refine second_carries (fun _ _ _ taken => taken.used) (fun second more => ?_) ?_ ?_
  · refine .peek (fun t more => ?_) ?_
    · split
      · split
        · exact bind _ body
        · exact plain
      · exact bind _ value
      · exact plain
    · rcases seam.cases with same | same <;> rw [same] <;> exact plain
  · rcases seam.cases with same | same <;> rw [same]
    · rw [edge _ (fun _ => by simp) (by simp), edge _ (fun _ => by simp) (by simp)]
      exact .peek (fun t more => plain) plain
    · rw [edge _ (fun _ => by simp) (by simp), edge _ (fun _ => by simp) (by simp)]
      exact .peek (fun t more => plain) plain
  · rw [edge _ (fun _ => by simp) (by simp), edge _ (fun _ => by simp) (by simp)]
    exact .peek (fun t more => plain) plain

end Storey

/-! ## Statements that follow each other -/

/-- Whether a token stands between statements. -/
def isSeparator : Token → Bool
  | .newline | .symbol .semi => true
  | _ => false

/-- A list of statements. -/
def layout (closing : Closing) : Layout where
  separates := isSeparator
  closes t := closing.isAt t || Closing.finish.isAt t
  follows t := isSeparator t || closing.isAt t
  finish_closes := by cases closing <;> rfl
  stays t closes := by
    cases t with
    | symbol mark => cases mark <;> first | rfl | (cases closing <;> exact nomatch closes)
    | newline => cases closing <;> exact nomatch closes
    | _ => rfl

section Lists

variable {read read' : Parser Tree} {closing : Closing} {k : Nat} {c c' : Cursor} {ts : List Tree}

theorem statementsWith_succ (read : Parser Tree) (closing : Closing) (k : Nat) (c : Cursor) :
    statementsWith read closing (k + 1) c = (do
      let next ← here
      if (layout closing).closes next.token then return []
      else
        let first ← read
        let behind ← here
        if (layout closing).follows behind.token then
          let rest ← statementsWith read closing k
          return first :: rest
        else complain (.expected "end of statement" behind.token) : Parser (List Tree))
      (c.drop (layout closing).separates) := rfl

theorem lists_of_statementsWith
    (uses : ∀ {c c' t}, c.IsWhole → read c = .ok (t, c') → ∃ new, c.Moved new c' ∧ 0 < new.used)
    (whole : c.IsWhole) (small : c.rest.length ≤ k)
    (ran : statementsWith read closing k c = .ok (ts, c')) :
    Lists (layout closing) read c ts c' := by
  induction k generalizing c ts with
  | zero => exact absurd (List.length_eq_zero_iff.mp (Nat.le_zero.mp small)) whole.there
  | succ k ih =>
      have first : c.Moved .nothing (c.drop (layout closing).separates) := .drop whole rfl
      rw [statementsWith_succ, bind_of_ok (here_eq _)] at ran
      cases closes : (layout closing).closes (c.drop (layout closing).separates).next.token with
      | true =>
          rw [closes] at ran
          cases ran
          exact .done closes
      | false =>
          rw [closes] at ran
          obtain ⟨t, c₂, got, ran⟩ := ok_of_bind ran
          rw [bind_of_ok (here_eq _)] at ran
          obtain ⟨new, moved, used⟩ := uses (first.whole whole) got
          have less := first.rest.length_le
          have less' := moved.used
          cases follows : (layout closing).follows c₂.next.token with
          | false =>
              rw [follows] at ran
              exact absurd ran (fails_complain _ _ _)
          | true =>
              rw [follows] at ran
              obtain ⟨rest, c₃, more, ran⟩ := ok_of_bind ran
              cases ran
              exact .item closes got follows (ih (moved.whole (first.whole whole)) (by omega) more)

theorem statementsWith_of_lists (h : Lists (layout closing) read c ts c') (small : ts.length < k) :
    statementsWith read closing k c = .ok (ts, c') := by
  induction h generalizing k with
  | done closes =>
      obtain ⟨k, rfl⟩ := Nat.exists_eq_add_one_of_ne_zero (Nat.ne_zero_of_lt small)
      rw [statementsWith_succ, bind_of_ok (here_eq _), if_pos closes]
      rfl
  | item opens got follows rest ih =>
      obtain ⟨k, rfl⟩ := Nat.exists_eq_add_one_of_ne_zero (Nat.ne_zero_of_lt small)
      rw [statementsWith_succ, bind_of_ok (here_eq _), if_neg (by simp [opens]), bind_of_ok got,
        bind_of_ok (here_eq _), if_pos follows,
        bind_of_ok (ih (Nat.lt_of_succ_lt_succ small))]
      rfl

theorem body_precedes (reads : ∀ room, Carries s .loose room anywhere read read' (Taken s)) :
    Precedes s room (do statementsWith read closing (← remaining))
      (do statementsWith read' closing (← remaining)) (Copies s) := by
  intro c ts c' whole small ran
  have lists : Lists (layout closing) read c ts c' :=
    lists_of_statementsWith (fun whole got =>
      let ⟨new, _, moved, taken⟩ := (reads _ whole (Nat.le_refl _) trivial got).moved
      ⟨new, moved, taken.used⟩) whole (Nat.le_refl _) ran
  obtain ⟨new, us, moved, copies, -⟩ := lists.moved reads whole
  refine ⟨⟨new, us, moved, copies⟩, fun more d meets below => ?_⟩
  obtain ⟨new, us, d', leads⟩ := lists.leads reads meets below (.inl more)
  refine ⟨new, us, d', leads.moved, ?_, leads.meets, leads.copies⟩
  refine statementsWith_of_lists (leads.done lists more) ?_
  have := leads.counted
  have := leads.moved.used
  have := List.length_pos_iff.mpr leads.moved.there
  have := meets.length_le
  rw [leads.copies.length_eq]
  change _ < d.rest.length
  omega

end Lists

theorem storey_carries (seam : IsSeam s) {inner inner' : Inner} (inners : inner.Carries s inner') :
    (storey s.alone inner).Carries s (storey s.joint inner') where
  expression levels _ := expression_carries seam inners levels
  unary levels _ := unary_carries seam inners levels
  statements levels _ := body_precedes fun _ => statement_carries seam inners levels

/-- A tower of readers reads of the whole what a lower one reads of the text alone. -/
theorem tower_carries (seam : IsSeam s) {height height' : Nat} (le : height ≤ height') :
    (tower s.alone height).Carries s (tower s.joint height') := by
  induction height generalizing height' with
  | zero =>
      exact ⟨fun _ _ => .of_fails (fails_complain _), fun _ _ => .of_fails (fails_complain _),
        fun _ _ _ _ _ _ _ ran => absurd ran (fails_complain _ _ _)⟩
  | succ height ih =>
      obtain ⟨height', rfl⟩ := Nat.exists_eq_add_one_of_ne_zero (Nat.ne_zero_of_lt le)
      exact storey_carries seam (ih (Nat.le_of_succ_le_succ le))

end PeerScript.Script.Rho
