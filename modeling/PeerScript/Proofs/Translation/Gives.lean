import PeerScript.Proofs.Cursors
import PeerScript.Proofs.Lexing
import PeerScript.Proofs.Scopes

/-!
# What a reader returns

`Gives` says of a parser what it returns, and which names are in view behind it, when it succeeds
with those names in view that are given.  There is one law for each primitive reader, and one for a
reader behind another one.
-/

set_option autoImplicit false

namespace PeerScript.Script

/-- Of each token that a cursor has in front of it, the end of the script included, something is
known. -/
structure Cursor.Shows (P : Token → Prop) (c : Cursor) : Prop where
  finish : P .finish
  rest : ∀ t ∈ c.rest, P t.token

namespace Cursor.Shows

variable {P : Token → Prop} {c : Cursor} (h : c.Shows P)

include h

theorem next : P c.next.token := by
  rw [Cursor.next]
  cases shape : c.rest with
  | nil => exact h.finish
  | cons t rest => exact h.rest t (shape ▸ List.mem_cons_self)

theorem drop (p : Token → Bool) : (c.drop p).Shows P :=
  ⟨h.finish, fun t mem => h.rest t ((List.dropWhile_suffix _).subset mem)⟩

theorem settled : c.settled.Shows P := by
  rw [Cursor.settled]
  split
  · exact h.drop _
  · exact h

theorem behind : c.behind.Shows P := by
  rw [Cursor.behind]
  split
  · rename_i first second rest shape
    exact ⟨h.finish, fun t mem => h.rest t (shape ▸ List.mem_cons_of_mem first mem)⟩
  · exact h

end Cursor.Shows

/-- With the given names in view, and in front of tokens of which something is known, a parser
returns only what is right for the names that are in view behind it.  It makes no instances. -/
def Gives (P : Token → Prop) {α : Type} (p : Parser α) (names : List (List String))
    (right : α → List (List String) → Prop) : Prop :=
  ∀ ⦃c a c'⦄, c.Shows P → c.names = names → p c = .ok (a, c') →
    c'.Shows P ∧ c'.serial = c.serial ∧ right a c'.names

/-- A parser returns only what is right, and the names in view are the same behind it. -/
abbrev Keeps (P : Token → Prop) {α : Type} (p : Parser α) (names : List (List String))
    (right : α → Prop) : Prop :=
  Gives P p names fun a names' => names' = names ∧ right a

namespace Gives

open Script.Parser

variable {P : Token → Prop} {α β : Type} {p : Parser α} {f : α → Parser β}
  {names : List (List String)} {right right' : α → List (List String) → Prop}
  {right₂ : β → List (List String) → Prop}

theorem mono (h : Gives P p names right) (le : ∀ a names', right a names' → right' a names') :
    Gives P p names right' := by
  intro c a c' shows shown ran
  obtain ⟨shows', serial, gives⟩ := h shows shown ran
  exact ⟨shows', serial, le _ _ gives⟩

theorem pure {a : α} (gives : right a names) : Gives P (Pure.pure a) names right := by
  intro c b c' shows shown ran
  cases ran
  exact ⟨shows, rfl, shown ▸ gives⟩

theorem bind (first : Gives P p names right)
    (next : ∀ a names', right a names' → Gives P (f a) names' right₂) :
    Gives P (p >>= f) names right₂ := by
  intro c b c' shows shown ran
  obtain ⟨a, c₁, ran₁, ran₂⟩ := ok_of_bind ran
  obtain ⟨shows₁, serial₁, gives⟩ := first shows shown ran₁
  obtain ⟨shows₂, serial₂, last⟩ := next a _ gives shows₁ rfl ran₂
  exact ⟨shows₂, serial₂.trans serial₁, last⟩

/-- Behind a parser that leaves the names as they are. -/
theorem andThen {right : α → Prop} (first : Keeps P p names right)
    (next : ∀ a, right a → Gives P (f a) names right₂) : Gives P (p >>= f) names right₂ :=
  first.bind fun a _ ⟨same, gives⟩ => same ▸ next a gives

theorem of_fails (fails : p.Fails) : Gives P p names right :=
  fun _ _ _ _ _ ran => absurd ran (fails _ _)

/-- A step that reads nothing. -/
theorem step {g : Cursor → Cursor} (change : List (List String) → List (List String))
    (keeps : ∀ c, c.Shows P → (g c).Shows P) (serial : ∀ c, (g c).serial = c.serial)
    (shown : ∀ c, (g c).names = change c.names) :
    Gives P (modify g : Parser PUnit) names fun _ names' => names' = change names := by
  intro c a c' shows same ran
  cases ran
  exact ⟨keeps c shows, serial c, by rw [shown c, same]⟩

/-! ### Looking at tokens -/

theorem get : Keeps P get names fun c => c.Shows P ∧ c.names = names := by
  intro c d c' shows shown ran
  cases ran
  exact ⟨shows, rfl, shown, shows, shown⟩

theorem here : Keeps P here names fun t => P t.token := by
  intro c t c' shows shown ran
  cases ran
  exact ⟨shows, rfl, shown, shows.next⟩

theorem peek : Keeps P peek names P := by
  intro c t c' shows shown ran
  rw [peek_eq] at ran
  cases ran
  exact ⟨shows.settled, c.serial_settled, c.names_settled.trans shown, shows.settled.next⟩

theorem advance : Keeps P advance names fun t => P t.token := by
  intro c t c' shows shown ran
  rw [advance_eq] at ran
  cases ran
  exact ⟨shows.settled.behind, c.settled.serial_behind.trans c.serial_settled,
    (c.settled.names_behind.trans c.names_settled).trans shown, shows.settled.next⟩

theorem check (mark : Symbol) : Keeps P (check mark) names fun _ => True := by
  refine peek.andThen fun t _ => ?_
  split <;> exact pure ⟨rfl, trivial⟩

theorem expect (mark : Symbol) (what : String) :
    Keeps P (expect mark what) names fun _ => True := by
  refine (check mark).andThen fun found _ => ?_
  split
  · exact advance.andThen fun _ _ => pure ⟨rfl, trivial⟩
  · exact of_fails (.after (fun _ => fails_complain _) _)

theorem remaining : Keeps P remaining names fun _ => True := by
  intro c n c' shows shown ran
  cases ran
  exact ⟨shows, rfl, shown, trivial⟩

/-- To open or close brackets is to leave the names as they are. -/
theorem rebracketed (count : Cursor → Nat) :
    Gives P (modify fun c => { c with brackets := count c } : Parser PUnit) names
      fun _ names' => names' = names :=
  step id (fun _ shows => ⟨shows.finish, shows.rest⟩) (fun _ => rfl) fun _ => rfl

theorem bracketed (h : Gives P p names right) : Gives P (bracketed p) names right := by
  refine (rebracketed _).bind fun _ _ shown => ?_
  rw [shown]
  refine h.bind fun a names' gives => (rebracketed _).bind fun _ _ shown => ?_
  rw [shown]
  exact pure gives

/-! ### Names -/

theorem define (name : String) : Gives P (define name) names fun _ names' =>
    names' = names.modifyHead (name :: ·) := by
  refine step _ (fun c shows => ?_) (fun c => ?_) (fun c => ?_)
  · split
    · exact shows
    · exact ⟨shows.finish, shows.rest⟩
  · split <;> rfl
  · split <;> rename_i shape <;> rw [shape] <;> rfl

theorem body (opened : names ≠ []) {inside : α → Prop}
    (h : Gives P p ([] :: names) fun a names' => (∃ inner, names' = inner :: names) ∧ inside a) :
    Keeps P (body p) names inside := by
  refine bind
    (step ([] :: ·) (fun _ shows => ⟨shows.finish, shows.rest⟩) (fun _ => rfl) fun _ => rfl)
    fun _ _ shown => ?_
  rw [shown]
  refine h.bind fun a names' gives => ?_
  obtain ⟨⟨inner, rfl⟩, right⟩ := gives
  refine bind (step leave (fun _ shows => ⟨shows.finish, shows.rest⟩) (fun _ => rfl) fun _ => rfl)
    fun _ _ shown => ?_
  rw [shown, leave_cons inner opened]
  exact pure ⟨rfl, right⟩

theorem sees (ctx : Context) (name : String) :
    Keeps P (sees ctx name) names fun found => found = true → ctx.Sees names name := by
  intro c found c' shows shown ran
  cases ran
  exact ⟨shows, rfl, shown, fun seen => by rw [Context.Sees, ← shown]; exact seen⟩

theorem requireRoot (ctx : Context) (path : Path) (place : Text.Position) :
    Keeps P (requireRoot ctx path place) names fun _ => ctx.Sees names path.root := by
  refine (sees ctx path.root).andThen fun found seen => ?_
  split
  · rename_i found
    exact pure ⟨rfl, seen found⟩
  · exact of_fails fun _ _ ran => nomatch ran

end Gives

end PeerScript.Script
