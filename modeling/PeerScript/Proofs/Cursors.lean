import Mathlib.Data.List.DropRight
import PeerScript.Script.Cursor

/-!
# Moving a cursor

What the primitive readers do to a cursor, and what is known of a reader that is followed by another
one.
-/

set_option autoImplicit false

namespace PeerScript.Script

open Text (Position)

variable {α β : Type}

/-- Whether a token is the end of a line. -/
def Token.isNewline : Token → Bool
  | .newline => true
  | _ => false

/-- Whether a token is a certain mark. -/
def Token.isSymbol (mark : Symbol) : Token → Bool
  | .symbol other => other = mark
  | _ => false

/-- The names in view behind a function body. -/
def leave (names : List (List String)) : List (List String) :=
  if 1 < names.length then names.tail else names

theorem leave_cons (innermost : List String) {names : List (List String)} (opened : names ≠ []) :
    leave (innermost :: names) = names := by
  rw [leave, if_pos (by simpa using List.length_pos_iff.mpr opened), List.tail_cons]

namespace Cursor

/-- The tokens that follow. -/
def tokens (c : Cursor) : List Token := c.rest.map Placed.token

/-- The next token. -/
def next (c : Cursor) : Placed := c.rest.headD ⟨.finish, .start⟩

/-- The cursor behind the next token. -/
def behind (c : Cursor) : Cursor :=
  match c.rest with
  | _ :: second :: rest => { c with rest := second :: rest }
  | _ => c

/-- The cursor behind the tokens in front that are to be passed over. -/
def drop (p : Token → Bool) (c : Cursor) : Cursor :=
  { c with rest := c.rest.dropWhile fun t => p t.token }

/-- The cursor behind the line ends that do not count. -/
def settled (c : Cursor) : Cursor := if 0 < c.brackets then c.drop Token.isNewline else c

/-- The cursor with other names in view. -/
def withNames (c : Cursor) (names : List (List String)) : Cursor := { c with names := names }

/-- The cursor with another number of open brackets. -/
def withBrackets (c : Cursor) (brackets : Nat) : Cursor := { c with brackets := brackets }

/-- The cursor inside of a body. -/
def entered (c : Cursor) : Cursor := c.withNames ([] :: c.names)

/-- The cursor outside of a body. -/
def left (c : Cursor) : Cursor := c.withNames (leave c.names)

theorem tokens_length (c : Cursor) : c.tokens.length = c.rest.length := List.length_map _

theorem tokens_drop (p : Token → Bool) (c : Cursor) : (c.drop p).tokens = c.tokens.dropWhile p := by
  rw [tokens, tokens, List.dropWhile_map]
  rfl

theorem next_token (c : Cursor) : c.next.token = c.tokens.headD .finish := by
  rw [next, tokens]
  cases c.rest <;> rfl

@[simp] theorem brackets_behind (c : Cursor) : c.behind.brackets = c.brackets := by
  unfold behind
  split <;> rfl

@[simp] theorem names_behind (c : Cursor) : c.behind.names = c.names := by
  unfold behind
  split <;> rfl

@[simp] theorem serial_behind (c : Cursor) : c.behind.serial = c.serial := by
  unfold behind
  split <;> rfl

@[simp] theorem names_settled (c : Cursor) : c.settled.names = c.names := by
  unfold settled
  split <;> rfl

@[simp] theorem serial_settled (c : Cursor) : c.settled.serial = c.serial := by
  unfold settled
  split <;> rfl

theorem settled_settled (c : Cursor) : c.settled.settled = c.settled := by
  unfold settled
  split
  · rename_i inside
    rw [if_pos (show 0 < (c.drop Token.isNewline).brackets from inside)]
    simp only [drop, List.dropWhile_idempotent]
  · rfl

end Cursor

namespace Parser

theorem bind_of_ok {p : Parser α} {f : α → Parser β} {c c' : Cursor} {a : α}
    (h : p c = .ok (a, c')) : (p >>= f) c = f a c' := by
  change (p c >>= fun x => f x.1 x.2) = _
  rw [h]
  rfl

theorem ok_of_bind {a : Parser α} {f : α → Parser β} {c c' : Cursor} {y : β}
    (ran : (a >>= f) c = .ok (y, c')) :
    ∃ x c₁, a c = .ok (x, c₁) ∧ f x c₁ = .ok (y, c') := by
  change (a c >>= fun r => f r.1 r.2) = _ at ran
  cases first : a c with
  | error fault =>
      rw [first] at ran
      exact nomatch ran
  | ok r =>
      rw [first] at ran
      exact ⟨r.1, r.2, rfl, ran⟩

/-- A parser that never succeeds. -/
def Fails (a : Parser α) : Prop := ∀ c r, a c ≠ .ok r

theorem fails_complainAt (place : Position) (complaint : Complaint) :
    (complainAt place complaint : Parser α).Fails := fun _ _ ran => nomatch ran

theorem Fails.after {f : α → Parser β} (h : ∀ x, (f x).Fails) (a : Parser α) :
    (a >>= f).Fails := fun _ _ ran => by
  obtain ⟨x, c₁, -, ran⟩ := ok_of_bind ran
  exact h x _ _ ran

theorem Fails.before {a : Parser α} (h : a.Fails) (f : α → Parser β) : (a >>= f).Fails :=
  fun _ _ ran => by
    obtain ⟨x, c₁, ran, -⟩ := ok_of_bind ran
    exact h _ _ ran

theorem fails_complain (complaint : Complaint) : (complain complaint : Parser α).Fails :=
  .after (fun _ => .after (fun _ => fails_complainAt _ _) _) _

theorem peek_eq (c : Cursor) : peek c = .ok (c.settled.next.token, c.settled) := rfl

theorem advance_eq (c : Cursor) : advance c = .ok (c.settled.next, c.settled.behind) := rfl

theorem check_bind (mark : Symbol) (f : Bool → Parser α) :
    check mark >>= f = peek >>= fun t => f (t.isSymbol mark) := by
  rw [check, bind_assoc]
  refine congrArg (peek >>= ·) (funext fun t => ?_)
  cases t <;> rw [pure_bind] <;> rfl

theorem here_eq (c : Cursor) : here c = .ok (c.next, c) := rfl

end Parser

end PeerScript.Script
