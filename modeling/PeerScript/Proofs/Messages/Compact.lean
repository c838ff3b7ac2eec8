import PeerScript.Proofs.Messages.Listings

/-!
# Terms in front of other terms

In the compact language line ends mean nothing, so no parser is doomed at the end of a text.  What
stands there in the whole begins a term, and no term goes on with what begins another one.
-/

set_option autoImplicit false

namespace PeerScript.Script.Pi

open Text (Position)
open PeerScript.Script.Parser

/-- A seam between terms: the end of the script, or a token with which a term can begin. -/
structure IsSeam (s : Seam) : Prop where
  blunt : s.isSharp = false
  begins : s.head = .finish ∨ beginsTerm s.head = true

variable {s : Seam} {room : Nat} {start : Cursor → Prop}

theorem IsSeam.ne (seam : IsSeam s) {mark : Symbol} (no : beginsTerm (.symbol mark) = false) :
    s.head ≠ .symbol mark := by
  rcases seam.begins with finish | begins
  · rw [finish]
    exact nofun
  · exact ne_of_beginsTerm begins no

section Terms

variable (seam : IsSeam s) {term term' : Parser Tree}
  (terms : ∀ room, Carries s .loose room anywhere term term' (Taken s))

include seam terms

theorem termsUntil_carries {close : Symbol} (closes : beginsTerm (.symbol close) = false)
    (opening opening' : Position) (delimiter : String) {k k' : Nat} (le : k ≤ k') :
    Carries s .loose room start (termsUntil term close opening delimiter k)
      (termsUntil term' close opening' delimiter k') (Copies s) := by
  induction k generalizing k' room start with
  | zero => exact .of_fails (fails_complainAt _ _)
  | succ k ih =>
      obtain ⟨k', rfl⟩ := Nat.exists_eq_add_one_of_ne_zero (Nat.ne_zero_of_lt le)
      refine .check (seam.ne closes) (.take fun _ _ _ _ => .pure (.nil rfl)) ?_
      refine .peek (fun t more => ?_) (.of_fails (fails_complainAt _ _))
      have next : Carries s .loose room (Cursor.IsAt t)
          (do
            let first ← term
            let rest ← termsUntil term close opening delimiter k
            return first :: rest)
          (do
            let first ← term'
            let rest ← termsUntil term' close opening' delimiter k'
            return first :: rest) (Copies s) := by
        refine (terms _).from_anywhere.bind fun t u new first => ?_
        refine (ih (Nat.le_of_succ_le_succ le)).bind fun ts us new' rest => ?_
        exact .pure (.cons first.toCopy rest rfl)
      cases t <;> first | exact next | exact absurd rfl more

omit seam in
theorem argsAfter_carries {k k' : Nat} (le : k ≤ k') :
    Carries s .loose room start (argsAfter term k) (argsAfter term' k') (Copies s) := by
  induction k generalizing k' room start with
  | zero => exact .of_fails (.after (fun _ => fails_complain _) _)
  | succ k ih =>
      obtain ⟨k', rfl⟩ := Nat.exists_eq_add_one_of_ne_zero (Nat.ne_zero_of_lt le)
      refine (terms _).from_anywhere.bind fun t u new first => ?_
      refine .peek (fun token more => ?_) (.of_fails (fails_complain _))
      split
      · refine .take fun _ _ _ _ => ?_
        refine (ih (Nat.le_of_succ_le_succ le)).bind fun ts us new'' rest => ?_
        exact .pure (.cons first.toCopy rest (by simp))
      · exact .take fun _ _ _ _ => .pure (.one first.toCopy rfl)
      · exact .of_fails (fails_complain _)

theorem args_carries : Carries s .loose room start (args term) (args term')
    fun ts us new => Copies s ts us new ∧ 0 < new.used := by
  refine (Carries.expect (seam.ne rfl) _).bind fun _ _ new opened => ?_
  have used : ∀ more : Trace, 0 < (new.followedBy more).used := fun more => by
    simp only [opened, Trace.used_followedBy, Trace.used_token]
    omega
  refine .check (seam.ne rfl) (.take fun _ _ _ _ => .pure ⟨.nil ?_, used _⟩) ?_
  · rw [opened]
    rfl
  · refine .remaining fun k k' le => ?_
    refine (argsAfter_carries terms le).mono fun ts us new' operands => ?_
    exact ⟨operands.mono (by simp [opened]), used _⟩

theorem application_carries (mark : Symbol) (place place' : Position) :
    Carries s .loose room start (application term mark place) (application term' mark place')
      (Copy s) := by
  refine .check (seam.ne rfl) ?_ (.of_fails (fails_complainAt _ _))
  refine (args_carries seam terms).bind fun ts us new operands => ?_
  rw [operands.1.length_eq]
  split
  · exact .pure (.call operands.1 rfl)
  · exact .of_fails (fails_complainAt _ _)

omit terms in
theorem members_carries (place place' : Position) {k k' : Nat} (le : k ≤ k') :
    Carries s .loose k start (members place k) (members place' k')
      fun x y new => y = x ∧ new.names = [] := by
  induction k generalizing k' start with
  | zero => exact .of_nothing
  | succ k ih =>
      obtain ⟨k', rfl⟩ := Nat.exists_eq_add_one_of_ne_zero (Nat.ne_zero_of_lt le)
      refine .check (seam.ne rfl) (.take fun _ _ _ _ => ?_) (.pure ⟨rfl, rfl⟩)
      refine .advance_more (fun p last => ?_) fun t more =>
        .take_of_ne more fun p q known known' => ?_
      · rw [last]
        exact fails_complainAt _ _
      · rw [known, known']
        split
        · refine ((ih (Nat.le_of_succ_le_succ le)).within (Nat.sub_le _ _)).bind
            fun x y new rest => .pure ⟨?_, ?_⟩
          · rw [rest.1]
          · simp [rest.2]
        · exact .of_fails (fails_complainAt _ _)

theorem named_carries (first : String) (place place' : Position) :
    Carries s .loose room start (named s.alone term first place) (named s.joint term' first place')
      (Copy s) := by
  refine .remaining fun k k' le => ?_
  refine (members_carries seam place place' le).bind fun x y new names => ?_
  rw [names.1]
  have read : ∀ {room start}, Carries s .loose room start
      (reference s.alone ⟨first :: x⟩ place) (reference s.joint ⟨first :: x⟩ place')
      fun t u new' => Copy s t u (new.followedBy new') := fun {_ _} =>
    (Carries.reference _ place place').loosen.mono fun t u new' read =>
      read.1.mono (by simp [names.2, read.2])
  refine .peek (fun t more => ?_) ?_
  · split
    · refine .take fun _ _ _ _ => (Carries.define _).bind fun _ _ new' bound => ?_
      refine (terms _).bind fun t u new'' value => .pure (value.bind ?_)
      simp [names.2, bound]
    · refine (args_carries seam terms).bind fun ts us new' operands => ?_
      refine (Carries.call _ place place' operands.1).loosen.mono fun t u new'' called => ?_
      exact called.1.mono (by simp [names.2, called.2])
    · exact read
  · -- what stands at the edge neither binds nor calls what the text has read
    have assign : s.head ≠ .symbol .assign := seam.ne rfl
    have paren : s.head ≠ .symbol .lParen := seam.ne rfl
    generalize s.head = edge at assign paren
    dsimp only
    split
    · exact absurd rfl assign
    · exact absurd rfl paren
    · exact read

omit seam terms in
theorem parameters_carries (opening opening' : Position) {k k' : Nat} (le : k ≤ k') :
    Carries s .loose room start (parameters opening k) (parameters opening' k')
      fun x y _ => y = x := by
  induction k generalizing k' room start with
  | zero => exact .of_fails (.after (fun _ => fails_complainAt _ _) _)
  | succ k ih =>
      obtain ⟨k', rfl⟩ := Nat.exists_eq_add_one_of_ne_zero (Nat.ne_zero_of_lt le)
      refine .advance_more (fun p last => ?_) fun t more =>
        .take_of_ne more fun p q known known' => ?_
      · rw [last]
        exact fails_complainAt _ _
      · rw [known, known']
        split
        · exact .pure rfl
        · refine (Carries.define _).bind fun _ _ _ _ => ?_
          exact (ih (Nat.le_of_succ_le_succ le)).bind fun x y _ same => .pure (by rw [same])
        · exact .of_fails (fails_complainAt _ _)

theorem function_carries (opening opening' : Position) : Carries s .loose room start
    (function term opening) (function term' opening') fun t u new => Copy s t u new := by
  have statements : ∀ room params, Carries s .loose room anywhere
      (do
        let statements ← termsUntil term .rBrace opening "\x7b" (← remaining)
        return .literal (.closure params (.sequence statements) none))
      (do
        let statements ← termsUntil term' .rBrace opening' "\x7b" (← remaining)
        return .literal (.closure params (.sequence statements) none))
      fun t u _ => Copy s t u .nothing := by
    intro room params
    refine .remaining fun k k' le => ?_
    refine (termsUntil_carries seam terms rfl _ _ _ le).bind fun ts us new statements => .pure ?_
    exact .closure params (.call statements rfl) rfl
  have inside : Carries s .loose room anywhere
      (do
        let params ←
          if ← check .pipe then
            let _ ← advance
            parameters opening (← remaining)
          else pure []
        let statements ← termsUntil term .rBrace opening "\x7b" (← remaining)
        return .literal (.closure params (.sequence statements) none))
      (do
        let params ←
          if ← check .pipe then
            let _ ← advance
            parameters opening' (← remaining)
          else pure []
        let statements ← termsUntil term' .rBrace opening' "\x7b" (← remaining)
        return .literal (.closure params (.sequence statements) none))
      fun t u _ => Copy s t u .nothing := by
    refine .check (seam.ne rfl) (.take fun _ _ _ _ => ?_) (statements _ [])
    refine .remaining fun k k' le => ?_
    refine (parameters_carries opening opening' le).bind fun x y new same => ?_
    rw [same]
    exact statements _ x
  refine (inside.sure seam.blunt).body.loosen.mono fun t u new read => ?_
  obtain ⟨none, _, -, read⟩ := read
  exact read.mono none

theorem termWith_carries : Carries s .loose room start
    (termWith s.alone term) (termWith s.joint term') (Taken s) := by
  have taken : ∀ {t u : Tree} {new : Trace}, Copy s t u new →
      Taken s t u (Trace.token.followedBy new) := fun read =>
    ⟨read.mono (by simp), by simp only [Trace.used_followedBy, Trace.used_token]; omega⟩
  have literal : ∀ {v : Value} {new : Trace}, v.marks = [] → new.names = [] →
      Copy s (.literal v) (.literal v) new := fun plain none =>
    .literal (Value.renumber_of_marks plain).symm none
  refine .advance_more (fun p last => ?_) fun t more => .take_of_ne more fun p q known known' => ?_
  · rw [last]
    exact fails_complainAt _ _
  rw [known, known']
  refine Carries.mono ?_ fun t u new => taken
  split
  · exact .pure (literal rfl rfl)
  · exact .pure (literal rfl rfl)
  · exact .pure (literal rfl rfl)
  · exact .pure (literal rfl rfl)
  · exact .pure (literal rfl rfl)
  · exact named_carries seam terms _ _ _
  · refine .peek (fun t more => ?_) (.check_at_end (fails_complainAt _ _))
    split
    · exact .take fun _ _ _ _ => .pure (literal rfl rfl)
    · exact .take fun _ _ _ _ => .pure (literal rfl rfl)
    · exact application_carries seam terms _ _ _
  · refine .remaining fun k k' le => ?_
    exact (termsUntil_carries seam terms rfl _ _ _ le).bind fun ts us new items => .pure items.list
  · exact function_carries seam terms _ _
  · split
    · exact application_carries seam terms _ _ _
    · exact .of_fails (fails_complainAt _ _)
  · exact .of_fails (fails_complainAt _ _)

end Terms

theorem term_carries (seam : IsSeam s) (levels : Nat) :
    Carries s .loose room start (term s.alone levels) (term s.joint levels) (Taken s) := by
  induction levels generalizing room start with
  | zero => exact .of_fails (.after (fun _ => fails_complainAt _ _) _)
  | succ levels ih => exact termWith_carries seam fun _ => ih

/-! ## Terms that follow each other -/

/-- Whether a token is the end of the script. -/
def isFinish : Token → Bool
  | .finish => true
  | _ => false

/-- The terms of a script. -/
def layout : Layout where
  separates _ := false
  closes := isFinish
  follows _ := true
  finish_closes := rfl
  stays _ _ := rfl

section Lists

variable {read : Parser Tree} {k : Nat} {c c' : Cursor} {ts : List Tree}

theorem drop_separates (c : Cursor) : c.drop layout.separates = c := by
  obtain ⟨rest, brackets, names, serial⟩ := c
  simp [Cursor.drop, layout]

theorem script_succ (read : Parser Tree) (k : Nat) {c : Cursor} (outside : c.brackets = 0) :
    script read (k + 1) c = (if layout.closes c.next.token then return []
      else do
        let first ← read
        let rest ← script read k
        return first :: rest : Parser (List Tree)) c := by
  have stays : c.settled = c := if_neg (by simp [outside])
  rw [script, bind_of_ok (peek_eq c), stays]
  cases c.next.token <;> rfl

variable
  (uses : ∀ {c c' t}, c.IsWhole → read c = .ok (t, c') → ∃ new, c.Moved new c' ∧ 0 < new.used)

include uses

theorem lists_of_script (whole : c.IsWhole) (outside : c.brackets = 0) (small : c.rest.length ≤ k)
    (ran : script read k c = .ok (ts, c')) : Lists layout read c ts c' := by
  induction k generalizing c ts with
  | zero => exact absurd (List.length_eq_zero_iff.mp (Nat.le_zero.mp small)) whole.there
  | succ k ih =>
      rw [script_succ read k outside] at ran
      cases closes : layout.closes c.next.token with
      | true =>
          rw [closes] at ran
          obtain ⟨rfl, rfl⟩ := Prod.mk.inj (Except.ok.inj ran)
          have done : Lists layout read c [] (c.drop layout.separates) :=
            .done (by rwa [drop_separates])
          rwa [drop_separates] at done
      | false =>
          rw [closes] at ran
          obtain ⟨t, c₂, got, ran⟩ := ok_of_bind ran
          obtain ⟨rest, c₃, more, ran⟩ := ok_of_bind ran
          cases ran
          obtain ⟨new, moved, used⟩ := uses whole got
          have less := moved.used
          exact .item (by rwa [drop_separates]) (by rwa [drop_separates]) rfl
            (ih (moved.whole whole) (moved.brackets.trans outside) (by omega) more)

theorem script_of_lists (h : Lists layout read c ts c') (whole : c.IsWhole)
    (outside : c.brackets = 0) (small : ts.length < k) : script read k c = .ok (ts, c') := by
  induction h generalizing k with
  | @done c closes =>
      obtain ⟨k, rfl⟩ := Nat.exists_eq_add_one_of_ne_zero (Nat.ne_zero_of_lt small)
      rw [drop_separates] at closes ⊢
      rw [script_succ read k outside, if_pos closes]
      rfl
  | item opens got follows rest ih =>
      obtain ⟨k, rfl⟩ := Nat.exists_eq_add_one_of_ne_zero (Nat.ne_zero_of_lt small)
      rw [drop_separates] at opens got
      obtain ⟨new, moved, -⟩ := uses whole got
      rw [script_succ read k outside, if_neg (ne_true_of_eq_false opens), bind_of_ok got,
        bind_of_ok (ih (moved.whole whole) (moved.brackets.trans outside)
          (Nat.lt_of_succ_lt_succ small))]
      rfl

end Lists

end PeerScript.Script.Pi
