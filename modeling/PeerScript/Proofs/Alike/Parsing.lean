import PeerScript.Proofs.Alike
import PeerScript.Script.Language

/-!
# Trees that look alike

The serial numbers that a parser gives out depend on what was made before.  Parsing one text with
two different next serial numbers yields trees that are alike, or the same fault: a parser looks at
the tokens and at the names in view and at nothing else.
-/

set_option autoImplicit false

namespace PeerScript.Script

open Text (Position)
open PeerScript.Script.Parser

/-- The token is not one of the hidden names. -/
def Token.Avoids (hidden : String → Prop) (t : Token) : Prop :=
  ∀ name, t = .name name → ¬ hidden name

/-- Contexts that differ in hidden names only. -/
structure Context.Agrees (hidden : String → Prop) (ctx ctx' : Context) : Prop where
  bound : ∀ name, ¬ hidden name → ctx.isBound name = ctx'.isBound name
  registry : ctx.registry = ctx'.registry
  natural : ctx.registry.IsNatural

variable (hidden : String → Prop)

/-- Cursors at the same place, with serial numbers that have not been paired yet. -/
structure Cursors (p : Pairing) (c d : Cursor) : Prop where
  rest : c.rest = d.rest
  brackets : c.brackets = d.brackets
  names : c.names = d.names
  avoids : ∀ t ∈ c.rest, t.token.Avoids hidden
  one : p.IsOneToOne
  below : p.Below c.serial d.serial

/-- What has been paired while the cursors moved on: serial numbers that were not given out. -/
structure Advance (p q : Pairing) (c d c' d' : Cursor) : Prop where
  le : p ≤ q
  frames : q.frames = p.frames
  left : c.serial ≤ c'.serial
  right : d.serial ≤ d'.serial

theorem Advance.refl (p : Pairing) (c d : Cursor) : Advance p p c d c d :=
  ⟨p.le_refl, rfl, Nat.le_refl _, Nat.le_refl _⟩

theorem Advance.trans {p q r : Pairing} {c d c' d' c'' d'' : Cursor} (h : Advance p q c d c' d')
    (k : Advance q r c' d' c'' d'') : Advance p r c d c'' d'' :=
  ⟨p.le_trans h.le k.le, k.frames.trans h.frames, Nat.le_trans h.left k.left,
    Nat.le_trans h.right k.right⟩

/-- Parsers that do the same from cursors at the same place. -/
def Parses {α : Type} (R : Pairing → α → α → Prop) (p : Pairing) (a b : Parser α) : Prop :=
  ∀ ⦃c d : Cursor⦄, Cursors hidden p c d →
    Agree (fun x y => ∃ q, Advance p q c d x.2 y.2 ∧ R q x.1 y.1 ∧ Cursors hidden q x.2 y.2)
      (a c) (b d)

variable {hidden} {α β : Type} {p : Pairing} {R : Pairing → α → α → Prop}
  {S : Pairing → β → β → Prop}

namespace Parses

theorem pure {x y : α} (h : R p x y) : Parses hidden R p (Pure.pure x) (Pure.pure y) :=
  fun c d cursors => .ok ⟨p, .refl p c d, h, cursors⟩

theorem throw (fault : Fault) : Parses hidden R p (throw fault) (throw fault) :=
  fun _ _ _ => .error fault

theorem bind {a b : Parser α} {f g : α → Parser β} (first : Parses hidden R p a b)
    (next : ∀ q, p ≤ q → ∀ x y, R q x y → Parses hidden S q (f x) (g y)) :
    Parses hidden S p (a >>= f) (b >>= g) := by
  intro c d cursors
  have run := first cursors
  change Agree _ (a c >>= fun x => f x.1 x.2) (b d >>= fun y => g y.1 y.2)
  cases left : a c <;> cases right : b d <;> rw [left, right] at run
  · cases run
    exact .error _
  · exact nomatch run
  · exact nomatch run
  · rename_i x y
    cases run with
    | ok related =>
        obtain ⟨q, advance, related, cursors⟩ := related
        have run := next q advance.le x.1 y.1 related cursors
        change Agree _ (f x.1 x.2) (g y.1 y.2)
        cases left : f x.1 x.2 <;> cases right : g y.1 y.2 <;> rw [left, right] at run
        · cases run
          exact .error _
        · exact nomatch run
        · exact nomatch run
        · cases run with
          | ok more =>
              obtain ⟨q', advance', related, cursors⟩ := more
              exact .ok ⟨q', advance.trans advance', related, cursors⟩

theorem get : Parses hidden (Cursors hidden) p MonadState.get MonadState.get :=
  fun c d cursors => .ok ⟨p, .refl p c d, cursors, cursors⟩

/-- What depends on the whole cursor is compared at the two cursors themselves. -/
theorem look {f g : Cursor → Parser α}
    (h : ∀ c d, Cursors hidden p c d →
      Agree (fun x y => ∃ q, Advance p q c d x.2 y.2 ∧ R q x.1 y.1 ∧ Cursors hidden q x.2 y.2)
        (f c c) (g d d)) :
    Parses hidden R p (MonadState.get >>= f) (MonadState.get >>= g) := h

theorem ite {c : Prop} [Decidable c] {a a' b b' : Parser α} (yes : c → Parses hidden R p a b)
    (no : ¬ c → Parses hidden R p a' b') :
    Parses hidden R p (if c then a else a') (if c then b else b') := by
  split
  · exact yes ‹_›
  · exact no ‹_›

end Parses

/-! ## Steps of a cursor -/

namespace Parser

/-- A token that both sides see, which is not hidden. -/
abbrev Seen (hidden : String → Prop) : Pairing → Placed → Placed → Prop :=
  fun _ a b => a = b ∧ a.token.Avoids hidden

/-- What moves a cursor without a look at the serial number moves both. -/
theorem move_alike {f : Cursor → Cursor}
    (blind : ∀ c serial, f { c with serial } = { f c with serial })
    (among : ∀ c, ∀ t ∈ (f c).rest, t ∈ c.rest) : Parses hidden Same p (modify f) (modify f) := by
  rintro ⟨rest, brackets, names, s⟩ ⟨_, _, _, t⟩ h
  obtain ⟨rfl, rfl, rfl, avoids, one, below⟩ := h
  have moved : f ⟨rest, brackets, names, t⟩ = { f ⟨rest, brackets, names, s⟩ with serial := t } :=
    blind ⟨rest, brackets, names, s⟩ t
  have kept : (f ⟨rest, brackets, names, s⟩).serial = s :=
    congrArg Cursor.serial (blind ⟨rest, brackets, names, s⟩ s)
  have kept' : (f ⟨rest, brackets, names, t⟩).serial = t := congrArg Cursor.serial moved
  refine .ok ⟨p, ⟨p.le_refl, rfl, Nat.le_of_eq kept.symm, Nat.le_of_eq kept'.symm⟩, rfl, ?_⟩
  change Cursors hidden p (f ⟨rest, brackets, names, s⟩) (f ⟨rest, brackets, names, t⟩)
  rw [moved]
  refine ⟨rfl, rfl, rfl, fun u mem => avoids u (among _ u mem), one, ?_⟩
  rw [kept]
  exact below

theorem here_alike : Parses hidden (Seen hidden) p here here := by
  intro c d h
  refine .ok ⟨p, .refl p c d, ⟨?_, ?_⟩, h⟩
  · change c.rest.headD _ = d.rest.headD _
    rw [h.rest]
  · change Token.Avoids hidden (c.rest.headD ⟨.finish, .start⟩).token
    have avoids := h.avoids
    cases shape : c.rest with
    | nil => exact fun name same => nomatch same
    | cons first rest => exact avoids first (shape ▸ List.mem_cons_self)

theorem settle_alike : Parses hidden Same p settle settle := by
  refine move_alike (fun c serial => ?_) fun c t mem => ?_
  · dsimp only
    split <;> rfl
  · split at mem
    · exact (List.dropWhile_sublist _).mem mem
    · exact mem

theorem peek_alike :
    Parses hidden (fun _ a b => a = b ∧ a.Avoids hidden) p peek peek := by
  refine settle_alike.bind fun q le _ _ _ => here_alike.bind fun q' le' x y seen => ?_
  exact Parses.pure ⟨congrArg Placed.token seen.1, seen.2⟩

theorem advance_alike : Parses hidden (Seen hidden) p advance advance := by
  refine settle_alike.bind fun q le _ _ _ => here_alike.bind fun q' le' x y seen => ?_
  refine (move_alike (fun c serial => ?_) fun c t mem => ?_).bind fun _ _ _ _ _ => Parses.pure seen
  · obtain ⟨rest, brackets, names, s⟩ := c
    rcases rest with _ | ⟨first, _ | ⟨second, rest⟩⟩ <;> rfl
  · split at mem
    · rename_i shape
      rw [shape]
      exact List.mem_cons_of_mem _ mem
    · exact mem

theorem complainAt_alike (place : Position) (complaint : Complaint) :
    Parses hidden R p (complainAt place complaint) (complainAt place complaint) :=
  Parses.throw _

theorem complain_alike (complaint : Complaint) :
    Parses hidden R p (complain complaint) (complain complaint) := by
  refine settle_alike.bind fun q le _ _ _ => here_alike.bind fun q' le' x y seen => ?_
  rw [seen.1]
  exact complainAt_alike _ _

theorem check_alike (mark : Symbol) : Parses hidden Same p (check mark) (check mark) := by
  refine peek_alike.bind fun q le x y seen => ?_
  rw [seen.1]
  split <;> exact Parses.pure rfl

theorem expect_alike (mark : Symbol) (what : String) :
    Parses hidden Same p (expect mark what) (expect mark what) := by
  refine (check_alike mark).bind fun q le x y same => ?_
  rw [same]
  refine Parses.ite (fun _ => ?_) fun _ => ?_
  · exact advance_alike.bind fun _ _ _ _ _ => Parses.pure rfl
  · refine peek_alike.bind fun q le x y seen => ?_
    rw [seen.1]
    exact complain_alike _

theorem remaining_alike : Parses hidden Same p remaining remaining :=
  Parses.get.bind fun _ _ _ _ h => Parses.pure (congrArg List.length h.rest)

/-- Related results stay related in more brackets, in a body, and whenever more has been paired. -/
theorem bracketed_alike {a b : Parser α} (h : ∀ q, Parses hidden R q a b)
    (mono : ∀ q q' x y, q ≤ q' → R q x y → R q' x y) :
    Parses hidden R p (bracketed a) (bracketed b) := by
  refine (move_alike ?_ ?_).bind fun q _ _ _ _ => ?_
  · exact fun c serial => rfl
  · exact fun c t mem => mem
  refine (h q).bind fun q' _ x y related => ?_
  refine (move_alike ?_ ?_).bind fun q'' le' _ _ _ => ?_
  · exact fun c serial => rfl
  · exact fun c t mem => mem
  exact Parses.pure (mono q' q'' x y le' related)

/-! ## Names and trees -/

theorem define_alike (name : String) : Parses hidden Same p (define name) (define name) := by
  refine move_alike (fun c serial => ?_) fun c t mem => ?_
  · obtain ⟨rest, brackets, names, s⟩ := c
    cases names <;> rfl
  · split at mem <;> exact mem

theorem body_alike {a b : Parser α} (h : ∀ q, Parses hidden R q a b)
    (mono : ∀ q q' x y, q ≤ q' → R q x y → R q' x y) :
    Parses hidden R p (body a) (body b) := by
  refine (move_alike ?_ ?_).bind fun q _ _ _ _ => ?_
  · exact fun c serial => rfl
  · exact fun c t mem => mem
  refine (h q).bind fun q' _ x y related => ?_
  refine (move_alike ?_ ?_).bind fun q'' le' _ _ _ => ?_
  · exact fun c serial => rfl
  · exact fun c t mem => mem
  exact Parses.pure (mono q' q'' x y le' related)

variable {ctx ctx' : Context}

theorem sees_alike (agrees : ctx.Agrees hidden ctx') {name : String} (shown : ¬ hidden name) :
    Parses hidden Same p (sees ctx name) (sees ctx' name) := by
  refine Parses.get.bind fun _ _ c d h => Parses.pure ?_
  rw [Same, h.names, agrees.bound name shown]

theorem requireRoot_alike (agrees : ctx.Agrees hidden ctx') {path : Path}
    (shown : ¬ hidden path.root) (place : Position) :
    Parses hidden Same p (requireRoot ctx path place) (requireRoot ctx' path place) := by
  refine (sees_alike agrees shown).bind fun _ _ x y same => ?_
  rw [same]
  exact Parses.ite (fun _ => Parses.pure rfl) fun _ => Parses.throw _

/-- Trees that look alike. -/
abbrev Trees (hidden : String → Prop) : Pairing → Tree → Tree → Prop :=
  fun q t u => t.Alike hidden q u

/-- Lists of trees that look alike. -/
abbrev TreeLists (hidden : String → Prop) : Pairing → List Tree → List Tree → Prop :=
  fun q ts us => Tree.AllAlike hidden q ts us

theorem reference_alike (agrees : ctx.Agrees hidden ctx') {path : Path} (shown : ¬ hidden path.root)
    (place : Position) :
    Parses hidden (Trees hidden) p (reference ctx path place) (reference ctx' path place) :=
  (requireRoot_alike agrees shown place).bind fun _ _ _ _ _ => Parses.pure (.reference shown)

theorem values?_alike {ts us : List Tree} (h : Tree.AllAlike hidden p ts us) :
    (ts.mapM Tree.value? = none ∧ us.mapM Tree.value? = none) ∨
      ∃ vs ws, ts.mapM Tree.value? = some vs ∧ us.mapM Tree.value? = some ws ∧
        Value.AllAlike hidden p vs ws := by
  induction ts generalizing us with
  | nil =>
      cases h
      exact .inr ⟨[], [], rfl, rfl, .nil⟩
  | cons t ts ih =>
      cases h with
      | cons first rest =>
          cases first with
          | literal value =>
              rcases ih rest with ⟨none, none'⟩ | ⟨vs, ws, some, some', alike⟩
              · exact .inl ⟨by simp [Tree.value?, none], by simp [Tree.value?, none']⟩
              · refine .inr ⟨_ :: vs, _ :: ws, ?_, ?_, .cons value alike⟩
                · simp [Tree.value?, some]
                · simp [Tree.value?, some']
          | reference _ => exact .inl ⟨by simp [Tree.value?], by simp [Tree.value?]⟩
          | call _ _ => exact .inl ⟨by simp [Tree.value?], by simp [Tree.value?]⟩

theorem list_alike {ts us : List Tree} (h : Tree.AllAlike hidden p ts us) :
    (Parser.list ts).Alike hidden p (Parser.list us) := by
  unfold Parser.list
  rcases values?_alike h with ⟨none, none'⟩ | ⟨vs, ws, some, some', alike⟩
  · rw [none, none']
    exact .call (fun _ same => nomatch same) h
  · rw [some, some']
    exact .literal (.list alike)

/-- Instances that are made at the same time are paired. -/
theorem numbered {c d : Cursor} (h : Cursors hidden p c d) :
    Cursors hidden (p.withSerials c.serial d.serial) { c with serial := c.serial + 1 }
      { d with serial := d.serial + 1 } :=
  { h with one := h.one.withSerials h.below, below := h.below.withSerials }

theorem call_alike (agrees : ctx.Agrees hidden ctx') {path : Path} (shown : ¬ hidden path.root)
    {ts us : List Tree} (h : Tree.AllAlike hidden p ts us) (place : Position) :
    Parses hidden (Trees hidden) p (call ctx path ts place) (call ctx' path us place) := by
  refine (sees_alike agrees shown).bind fun q le x y same => ?_
  have h := h.mono le
  rw [same, ← agrees.registry]
  refine Parses.ite (fun _ => ?_) fun _ => ?_
  · rcases values?_alike h with ⟨none, none'⟩ | ⟨vs, ws, some, some', alike⟩
    · rw [none, none']
      exact Parses.pure (.call (fun _ same => nomatch same) h)
    · rw [some, some']
      refine Parses.look fun c d cursors => ?_
      have decoded := agrees.natural.decode cursors.one path.root alike c.serial d.serial
      generalize ctx.registry.decode path.root vs c.serial = x,
        ctx.registry.decode path.root ws d.serial = y at decoded ⊢
      cases decoded with
      | error fault => cases fault <;> exact .error _
      | ok alike =>
          exact .ok ⟨q.withSerials c.serial d.serial,
            ⟨q.le_withSerials _ _, rfl, Nat.le_succ _, Nat.le_succ _⟩, .literal alike,
            numbered cursors⟩
  · refine (requireRoot_alike agrees shown place).bind fun q' le' _ _ _ => ?_
    refine Parses.pure (.call (fun other same => ?_) (h.mono le'))
    cases same
    exact shown

end Parser

/-! ## The compact language -/

namespace Pi

section Terms

variable {term term' : Parser Tree} (terms : ∀ q, Parses hidden (Trees hidden) q term term')

include terms

theorem termsUntil_alike (close : Symbol) (opening : Position) (delimiter : String)
    (allowance : Nat) : Parses hidden (TreeLists hidden) p
      (termsUntil term close opening delimiter allowance)
      (termsUntil term' close opening delimiter allowance) := by
  induction allowance generalizing p with
  | zero => exact complainAt_alike _ _
  | succ allowance ih =>
      refine (check_alike close).bind fun _ _ x y same => ?_
      rw [same]
      refine Parses.ite (fun _ => ?_) fun _ => ?_
      · exact advance_alike.bind fun _ _ _ _ _ => Parses.pure .nil
      · refine peek_alike.bind fun _ _ x y seen => ?_
        rw [seen.1]
        split
        · exact complainAt_alike _ _
        · refine (terms _).bind fun q _ t u first => ?_
          refine ih.bind fun q' le ts us rest => ?_
          exact Parses.pure (.cons (first.mono le) rest)

theorem argsAfter_alike (allowance : Nat) : Parses hidden (TreeLists hidden) p
    (argsAfter term allowance) (argsAfter term' allowance) := by
  induction allowance generalizing p with
  | zero =>
      refine peek_alike.bind fun _ _ x y seen => ?_
      rw [seen.1]
      exact complain_alike _
  | succ allowance ih =>
      refine (terms _).bind fun _ _ t u first => ?_
      refine peek_alike.bind fun _ le x y seen => ?_
      rw [seen.1]
      split
      · refine advance_alike.bind fun _ le' _ _ _ => ?_
        refine ih.bind fun _ le'' ts us rest => Parses.pure ?_
        exact .cons (((first.mono le).mono le').mono le'') rest
      · refine advance_alike.bind fun _ le' _ _ _ => Parses.pure ?_
        exact .cons ((first.mono le).mono le') .nil
      · exact complain_alike _

theorem args_alike : Parses hidden (TreeLists hidden) p (args term) (args term') := by
  refine (expect_alike _ _).bind fun _ _ _ _ _ => ?_
  refine (check_alike _).bind fun _ _ x y same => ?_
  rw [same]
  refine Parses.ite (fun _ => ?_) fun _ => ?_
  · exact advance_alike.bind fun _ _ _ _ _ => Parses.pure .nil
  · refine remaining_alike.bind fun _ _ x y same => ?_
    rw [same]
    exact argsAfter_alike terms y

theorem application_alike (mark : Symbol) (place : Position) : Parses hidden (Trees hidden) p
    (application term mark place) (application term' mark place) := by
  refine (check_alike _).bind fun _ _ x y same => ?_
  rw [same]
  refine Parses.ite (fun _ => ?_) fun _ => complainAt_alike _ _
  refine (args_alike terms).bind fun _ _ ts us operands => ?_
  rw [operands.length_eq]
  split
  · exact Parses.pure (.call (fun _ same => nomatch same) operands)
  · exact complainAt_alike _ _

omit terms in
theorem members_alike (place : Position) (allowance : Nat) :
    Parses hidden Same p (members place allowance) (members place allowance) := by
  induction allowance generalizing p with
  | zero => exact Parses.pure rfl
  | succ allowance ih =>
      refine (check_alike _).bind fun _ _ x y same => ?_
      rw [same]
      refine Parses.ite (fun _ => ?_) fun _ => Parses.pure rfl
      refine advance_alike.bind fun _ _ _ _ _ => advance_alike.bind fun _ _ x y seen => ?_
      rw [seen.1]
      split
      · exact ih.bind fun _ _ _ _ same => Parses.pure (congrArg _ same)
      · exact complainAt_alike _ _

theorem named_alike {ctx ctx' : Context} (agrees : ctx.Agrees hidden ctx') {first : String}
    (shown : ¬ hidden first) (place : Position) : Parses hidden (Trees hidden) p
      (named ctx term first place) (named ctx' term' first place) := by
  refine remaining_alike.bind fun _ _ x y same => ?_
  rw [same]
  refine (members_alike place y).bind fun _ _ names names' same => ?_
  rw [same]
  have root : ¬ hidden (Path.mk (first :: names')).root := shown
  refine peek_alike.bind fun _ _ x y seen => ?_
  rw [seen.1]
  split
  · refine advance_alike.bind fun _ _ _ _ _ => (define_alike _).bind fun _ _ _ _ _ => ?_
    refine (terms _).bind fun _ _ t u value => Parses.pure ?_
    exact .call (fun _ same => nomatch same) (.cons value .nil)
  · exact (args_alike terms).bind fun _ _ ts us operands => call_alike agrees root operands place
  · exact reference_alike agrees root place

omit terms in
theorem parameters_alike (opening : Position) (allowance : Nat) :
    Parses hidden Same p (parameters opening allowance) (parameters opening allowance) := by
  induction allowance generalizing p with
  | zero =>
      refine peek_alike.bind fun _ _ x y seen => ?_
      rw [seen.1]
      exact complainAt_alike _ _
  | succ allowance ih =>
      refine advance_alike.bind fun _ _ x y seen => ?_
      rw [seen.1]
      split
      · exact Parses.pure rfl
      · refine (define_alike _).bind fun _ _ _ _ _ => ?_
        exact ih.bind fun _ _ _ _ same => Parses.pure (congrArg _ same)
      · exact complainAt_alike _ _

theorem function_alike (opening : Position) : Parses hidden (Trees hidden) p
    (function term opening) (function term' opening) := by
  refine body_alike (fun q => ?_) fun _ _ _ _ le h => h.mono le
  have statements : ∀ q params, Parses hidden (Trees hidden) q
      (do
        let statements ← termsUntil term .rBrace opening "\x7b" (← remaining)
        return .literal (.closure params (.sequence statements) none))
      (do
        let statements ← termsUntil term' .rBrace opening "\x7b" (← remaining)
        return .literal (.closure params (.sequence statements) none)) := by
    intro q params
    refine remaining_alike.bind fun _ _ x y same => ?_
    rw [same]
    refine (termsUntil_alike terms _ opening _ y).bind fun _ _ ts us statements => Parses.pure ?_
    exact .literal (.closure (.call (fun _ same => nomatch same) statements) .none)
  refine (check_alike _).bind fun _ _ x y same => ?_
  rw [same]
  refine Parses.ite (fun _ => ?_) fun _ => statements _ []
  refine advance_alike.bind fun _ _ _ _ _ => remaining_alike.bind fun _ _ x y same => ?_
  rw [same]
  refine (parameters_alike opening y).bind fun _ _ names names' same => ?_
  rw [same]
  exact statements _ names'

theorem termWith_alike {ctx ctx' : Context} (agrees : ctx.Agrees hidden ctx') :
    Parses hidden (Trees hidden) p (termWith ctx term) (termWith ctx' term') := by
  refine advance_alike.bind fun _ _ x first seen => ?_
  obtain ⟨rfl, avoids⟩ := seen
  split
  · exact Parses.pure (.literal (.int _))
  · exact Parses.pure (.literal (.float _))
  · exact Parses.pure (.literal (.str _))
  · exact Parses.pure (.literal (.bool _))
  · exact Parses.pure (.literal (.bool _))
  · exact named_alike terms agrees (avoids _ ‹_›) _
  · refine peek_alike.bind fun _ _ x y seen => ?_
    rw [seen.1]
    split
    · exact advance_alike.bind fun _ _ _ _ _ => Parses.pure (.literal (.int _))
    · exact advance_alike.bind fun _ _ _ _ _ => Parses.pure (.literal (.float _))
    · exact application_alike terms _ _
  · refine remaining_alike.bind fun _ _ x y same => ?_
    rw [same]
    refine (termsUntil_alike terms _ _ _ y).bind fun _ _ ts us items => ?_
    exact Parses.pure (list_alike items)
  · exact function_alike terms _
  · exact Parses.ite (fun _ => application_alike terms _ _) fun _ => complainAt_alike _ _
  · exact complainAt_alike _ _

theorem script_alike (allowance : Nat) : Parses hidden (TreeLists hidden) p
    (script term allowance) (script term' allowance) := by
  induction allowance generalizing p with
  | zero => exact Parses.pure .nil
  | succ allowance ih =>
      refine peek_alike.bind fun _ _ x y seen => ?_
      rw [seen.1]
      split
      · exact Parses.pure .nil
      · refine (terms _).bind fun _ _ t u first => ?_
        refine ih.bind fun _ le ts us rest => Parses.pure ?_
        exact .cons (first.mono le) rest

end Terms

theorem term_alike {ctx ctx' : Context} (agrees : ctx.Agrees hidden ctx') (levels : Nat) :
    Parses hidden (Trees hidden) p (term ctx levels) (term ctx' levels) := by
  induction levels generalizing p with
  | zero =>
      refine here_alike.bind fun _ _ x y seen => ?_
      rw [seen.1]
      exact complainAt_alike _ _
  | succ levels ih => exact termWith_alike (fun _ => ih) agrees

end Pi

/-! ## The language of statements -/

namespace Rho

theorem nested_alike {a b : Nat → Parser Tree}
    (h : ∀ q levels, Parses hidden (Trees hidden) q (a levels) (b levels)) (levels : Nat) :
    Parses hidden (Trees hidden) p (nested a levels) (nested b levels) := by
  cases levels with
  | zero =>
      refine here_alike.bind fun _ _ x y seen => ?_
      rw [seen.1]
      exact complainAt_alike _ _
  | succ levels => exact h p levels

theorem expressionList_alike {a b : Parser Tree} (h : ∀ q, Parses hidden (Trees hidden) q a b)
    (close : Symbol) (allowance : Nat) : Parses hidden (TreeLists hidden) p
      (expressionList a close allowance) (expressionList b close allowance) := by
  induction allowance generalizing p with
  | zero => exact complain_alike _
  | succ allowance ih =>
      refine (check_alike _).bind fun _ _ x y same => ?_
      rw [same]
      refine Parses.ite (fun _ => ?_) fun _ => ?_
      · exact advance_alike.bind fun _ _ _ _ _ => Parses.pure .nil
      · refine peek_alike.bind fun _ _ x y seen => ?_
        rw [seen.1]
        split
        · exact complain_alike _
        · refine (h _).bind fun q _ t u first => ?_
          have rest : ∀ q', q ≤ q' → Parses hidden (TreeLists hidden) q'
              (do
                let rest ← expressionList a close allowance
                return t :: rest)
              (do
                let rest ← expressionList b close allowance
                return u :: rest) := fun q' le =>
            ih.bind fun _ le' ts us rest => Parses.pure (.cons ((first.mono le).mono le') rest)
          refine (check_alike _).bind fun _ le x y same => ?_
          rw [same]
          refine Parses.ite (fun _ => ?_) fun _ => ?_
          · exact advance_alike.bind fun _ le' _ _ _ => rest _ (Pairing.le_trans le le')
          · refine (check_alike _).bind fun _ le' x y same => ?_
            rw [same]
            refine Parses.ite (fun _ => rest _ (Pairing.le_trans le le')) fun _ => ?_
            refine peek_alike.bind fun _ le'' x y seen => ?_
            rw [seen.1]
            refine (complain_alike (R := Same) _).bind fun _ le3 _ _ _ => rest _ ?_
            exact Pairing.le_trans (Pairing.le_trans (Pairing.le_trans le le') le'') le3

theorem members_alike (place : Position) (allowance : Nat) :
    Parses hidden Same p (members place allowance) (members place allowance) := by
  induction allowance generalizing p with
  | zero => exact Parses.pure rfl
  | succ allowance ih =>
      refine (check_alike _).bind fun _ _ x y same => ?_
      rw [same]
      refine Parses.ite (fun _ => ?_) fun _ => Parses.pure rfl
      refine advance_alike.bind fun _ _ _ _ _ => advance_alike.bind fun _ _ x y seen => ?_
      rw [seen.1]
      split
      · exact ih.bind fun _ _ _ _ same => Parses.pure (congrArg _ same)
      · exact complainAt_alike _ _

theorem path_alike {ctx ctx' : Context} (agrees : ctx.Agrees hidden ctx') {a b : Parser Tree}
    (h : ∀ q, Parses hidden (Trees hidden) q a b) {first : String} (shown : ¬ hidden first)
    (place : Position) : Parses hidden (Trees hidden) p
      (path ctx a first place) (path ctx' b first place) := by
  refine remaining_alike.bind fun _ _ x y same => ?_
  rw [same]
  refine (members_alike place y).bind fun _ _ names names' same => ?_
  rw [same]
  have root : ¬ hidden (Path.mk (first :: names')).root := shown
  refine (check_alike _).bind fun _ _ x y same => ?_
  rw [same]
  refine Parses.ite (fun _ => ?_) fun _ => reference_alike agrees root place
  refine advance_alike.bind fun _ _ _ _ _ => ?_
  refine Parses.bind (R := TreeLists hidden) ?_ fun _ _ ts us args =>
    call_alike agrees root args place
  refine bracketed_alike (fun q => ?_) fun _ _ _ _ le h => h.mono le
  refine remaining_alike.bind fun _ _ x y same => ?_
  rw [same]
  exact expressionList_alike h _ y

theorem parameters_alike (allowance : Nat) :
    Parses hidden Same p (parameters allowance) (parameters allowance) := by
  induction allowance generalizing p with
  | zero =>
      refine peek_alike.bind fun _ _ x y seen => ?_
      rw [seen.1]
      exact complain_alike _
  | succ allowance ih =>
      refine advance_alike.bind fun _ _ x y seen => ?_
      rw [seen.1]
      split
      · exact Parses.pure rfl
      · refine (define_alike _).bind fun _ _ _ _ _ => (check_alike _).bind fun _ _ x y same => ?_
        rw [same]
        refine Parses.ite (fun _ => advance_alike.bind fun _ _ _ _ _ => ?_) fun _ => ?_
        · exact ih.bind fun _ _ _ _ same => Parses.pure (congrArg _ same)
        · exact ih.bind fun _ _ _ _ same => Parses.pure (congrArg _ same)
      · exact complain_alike _

/-- Readers that do the same. -/
structure Inner.Alike (hidden : String → Prop) (inner inner' : Inner) : Prop where
  expression : ∀ p levels,
    Parses hidden (Trees hidden) p (inner.expression levels) (inner'.expression levels)
  unary : ∀ p levels, Parses hidden (Trees hidden) p (inner.unary levels) (inner'.unary levels)
  statements : ∀ p levels closing,
    Parses hidden (TreeLists hidden) p (inner.statements levels closing)
      (inner'.statements levels closing)

section Bodies

variable {statements statements' : Closing → Parser (List Tree)}
  (bodies : ∀ q closing,
    Parses hidden (TreeLists hidden) q (statements closing) (statements' closing))

include bodies

theorem block_alike :
    Parses hidden (Trees hidden) p (block statements) (block statements') := by
  refine Parses.get.bind fun _ _ c d cursors => ?_
  rw [cursors.brackets]
  refine (move_alike ?_ ?_).bind fun _ _ _ _ _ => ?_
  · exact fun c serial => rfl
  · exact fun c t mem => mem
  refine (bodies _ .brace).bind fun _ _ ts us body => ?_
  refine (check_alike _).bind fun _ le x y same => ?_
  rw [same]
  refine Parses.ite (fun _ => ?_) fun _ => complain_alike _
  refine advance_alike.bind fun _ le' _ _ _ => ?_
  refine (move_alike ?_ ?_).bind fun _ le'' _ _ _ => ?_
  · exact fun c serial => rfl
  · exact fun c t mem => mem
  exact Parses.pure (.call (fun _ same => nomatch same) (((body.mono le).mono le').mono le''))

/-- A function whose body is a block. -/
theorem block_closure_alike (params : List String) : Parses hidden (Trees hidden) p
    (do return .literal (.closure params (← block statements) none))
    (do return .literal (.closure params (← block statements') none)) :=
  (block_alike bodies).bind fun _ _ _ _ body => Parses.pure (.literal (.closure body .none))

theorem function_alike :
    Parses hidden (Trees hidden) p (function statements) (function statements') := by
  refine (expect_alike _ _).bind fun _ _ _ _ _ => ?_
  refine body_alike (fun q => ?_) fun _ _ _ _ le h => h.mono le
  refine Parses.bind (R := Same) ?_ fun _ _ names names' same => ?_
  · refine bracketed_alike (fun q => ?_) fun _ _ _ _ _ same => same
    refine remaining_alike.bind fun _ _ x y same => ?_
    rw [same]
    exact parameters_alike y
  · rw [same]
    exact (expect_alike _ _).bind fun _ _ _ _ _ => block_closure_alike bodies names'

end Bodies

section Expressions

variable {ctx ctx' : Context} (agrees : ctx.Agrees hidden ctx') {inner inner' : Inner}
  (parts : inner.Alike hidden inner')

include agrees parts

theorem primary_alike (levels : Nat) :
    Parses hidden (Trees hidden) p (primary ctx inner levels) (primary ctx' inner' levels) := by
  refine advance_alike.bind fun _ _ x first seen => ?_
  obtain ⟨rfl, avoids⟩ := seen
  split
  · exact Parses.pure (.literal (.int _))
  · exact Parses.pure (.literal (.float _))
  · exact Parses.pure (.literal (.str _))
  · exact Parses.pure (.literal (.bool _))
  · exact Parses.pure (.literal (.bool _))
  · refine Parses.ite (fun _ => ?_) fun _ => ?_
    · exact function_alike fun q => parts.statements q levels
    · exact path_alike agrees (fun q => parts.expression q levels) (avoids _ ‹_›) _
  · refine bracketed_alike (fun q => ?_) fun _ _ _ _ le h => h.mono le
    refine (parts.expression _ levels).bind fun _ _ t u inside => ?_
    exact (expect_alike _ _).bind fun _ le _ _ _ => Parses.pure (inside.mono le)
  · refine Parses.bind (R := TreeLists hidden) ?_ fun _ _ ts us items =>
      Parses.pure (list_alike items)
    refine bracketed_alike (fun q => ?_) fun _ _ _ _ le h => h.mono le
    refine remaining_alike.bind fun _ _ x y same => ?_
    rw [same]
    exact expressionList_alike (fun q => parts.expression q levels) _ y
  · refine body_alike (fun q => ?_) fun _ _ _ _ le h => h.mono le
    exact block_closure_alike (fun q => parts.statements q levels) []
  · exact complainAt_alike _ _

omit agrees parts in
theorem negated_alike {t u : Tree} (h : t.Alike hidden p u) :
    (negated t).Alike hidden p (negated u) := by
  have applied : (Tree.op .neg [t]).Alike hidden p (Tree.op .neg [u]) :=
    .call (fun _ same => nomatch same) (.cons h .nil)
  cases h with
  | literal value =>
      cases value with
      | int i => exact .literal (.int _)
      | float x => exact .literal (.float _)
      | _ => exact applied
  | _ => exact applied

theorem unary_alike (levels : Nat) :
    Parses hidden (Trees hidden) p (unary ctx inner levels) (unary ctx' inner' levels) := by
  refine peek_alike.bind fun _ _ x y seen => ?_
  rw [seen.1]
  split
  · refine advance_alike.bind fun _ _ _ _ _ => ?_
    refine (nested_alike parts.unary levels).bind fun _ _ t u operand => Parses.pure ?_
    exact .call (fun _ same => nomatch same) (.cons operand .nil)
  · refine advance_alike.bind fun _ _ _ _ _ => ?_
    exact (nested_alike parts.unary levels).bind fun _ _ t u operand =>
      Parses.pure (negated_alike operand)
  · exact primary_alike agrees parts levels

omit agrees parts in
theorem chain_alike (operators : List (Symbol × Operator)) {a b : Parser Tree}
    (h : ∀ q, Parses hidden (Trees hidden) q a b) (allowance : Nat) {t u : Tree}
    (left : t.Alike hidden p u) : Parses hidden (Trees hidden) p
      (chain operators a allowance t) (chain operators b allowance u) := by
  induction allowance generalizing p t u with
  | zero => exact Parses.pure left
  | succ allowance ih =>
      refine peek_alike.bind fun _ le x y seen => ?_
      rw [seen.1]
      split
      · exact Parses.pure (left.mono le)
      · refine advance_alike.bind fun _ le' _ _ _ => ?_
        refine (h _).bind fun _ le'' t' u' right => ih ?_
        refine .call (fun _ same => nomatch same) (.cons ?_ (.cons right .nil))
        exact ((left.mono le).mono le').mono le''

omit agrees parts in
theorem binary_alike {a b : Parser Tree} (h : ∀ q, Parses hidden (Trees hidden) q a b)
    (levels : List (List (Symbol × Operator))) :
    Parses hidden (Trees hidden) p (binary a levels) (binary b levels) := by
  induction levels generalizing p with
  | nil => exact h p
  | cons operators tighter ih =>
      refine ih.bind fun _ _ t u first => remaining_alike.bind fun _ le x y same => ?_
      rw [same]
      exact chain_alike operators (fun _ => ih) y (first.mono le)

theorem expression_alike (levels : Nat) : Parses hidden (Trees hidden) p
    (expression ctx inner levels) (expression ctx' inner' levels) :=
  nested_alike (fun _ levels => binary_alike (fun _ => unary_alike agrees parts levels) _) levels

theorem statement_alike (levels : Nat) :
    Parses hidden (Trees hidden) p (statement ctx inner levels) (statement ctx' inner' levels) := by
  refine Parses.get.bind fun _ _ c d cursors => ?_
  rw [cursors.rest]
  refine peek_alike.bind fun _ _ x y seen => ?_
  rw [seen.1]
  split
  · refine Parses.ite (fun _ => ?_) fun _ => expression_alike agrees parts levels
    refine advance_alike.bind fun _ _ _ _ _ => advance_alike.bind fun _ _ _ _ _ => ?_
    refine (define_alike _).bind fun _ _ _ _ _ => ?_
    refine (function_alike fun q => parts.statements q levels).bind fun _ _ t u value => ?_
    exact Parses.pure (.call (fun _ same => nomatch same) (.cons value .nil))
  · refine advance_alike.bind fun _ _ _ _ _ => advance_alike.bind fun _ _ _ _ _ => ?_
    refine (define_alike _).bind fun _ _ _ _ _ => ?_
    refine (expression_alike agrees parts levels).bind fun _ _ t u value => ?_
    exact Parses.pure (.call (fun _ same => nomatch same) (.cons value .nil))
  · exact expression_alike agrees parts levels

end Expressions

theorem statementsWith_alike {a b : Parser Tree} (h : ∀ q, Parses hidden (Trees hidden) q a b)
    (closing : Closing) (allowance : Nat) : Parses hidden (TreeLists hidden) p
      (statementsWith a closing allowance) (statementsWith b closing allowance) := by
  induction allowance generalizing p with
  | zero => exact Parses.pure .nil
  | succ allowance ih =>
      refine (move_alike ?_ ?_).bind fun _ _ _ _ _ => ?_
      · exact fun c serial => rfl
      · exact fun c t mem => (List.dropWhile_sublist _).mem mem
      refine here_alike.bind fun _ _ x y seen => ?_
      rw [seen.1]
      refine Parses.ite (fun _ => Parses.pure .nil) fun _ => ?_
      refine (h _).bind fun _ _ t u first => here_alike.bind fun _ le x y seen => ?_
      rw [seen.1]
      refine Parses.ite (fun _ => ?_) fun _ => complain_alike _
      exact ih.bind fun _ le' ts us rest => Parses.pure (.cons ((first.mono le).mono le') rest)

theorem storey_alike {ctx ctx' : Context} (agrees : ctx.Agrees hidden ctx') {inner inner' : Inner}
    (parts : inner.Alike hidden inner') : (storey ctx inner).Alike hidden (storey ctx' inner') where
  expression := fun _ levels => expression_alike agrees parts levels
  unary := fun _ levels => unary_alike agrees parts levels
  statements := fun _ levels closing => by
    refine remaining_alike.bind fun _ _ x y same => ?_
    rw [same]
    exact statementsWith_alike (fun _ => statement_alike agrees parts levels) closing y

theorem tower_alike {ctx ctx' : Context} (agrees : ctx.Agrees hidden ctx') (height : Nat) :
    (tower ctx height).Alike hidden (tower ctx' height) := by
  induction height with
  | zero =>
      exact ⟨fun _ _ => complain_alike _, fun _ _ => complain_alike _,
        fun _ _ _ => complain_alike _⟩
  | succ height ih =>
      have readers := storey_alike agrees ih
      exact ⟨readers.expression, readers.unary, readers.statements⟩

end Rho

/-! ## Scripts -/

/-- A text in which no hidden name stands. -/
def Avoids (hidden : String → Prop) (source : String) : Prop :=
  ∀ tokens, tokenize source = .ok tokens → ∀ t ∈ tokens, t.token.Avoids hidden

/-- A text without hidden names is the same script for both sides, or no script for either. -/
theorem parse_alike (language : Language) {ctx ctx' : Context} (agrees : ctx.Agrees hidden ctx')
    {source : String} (avoids : Avoids hidden source) (one : p.IsOneToOne) {s t : Nat}
    (below : p.Below s t) :
    Agree (fun x y => ∃ q, p ≤ q ∧ q.frames = p.frames ∧ q.IsOneToOne ∧ q.Below x.2 y.2 ∧
        (s ≤ x.2 ∧ t ≤ y.2) ∧ x.1.Alike hidden q y.1)
      (parse language ctx source s) (parse language ctx' source t) := by
  unfold parse
  cases known : tokenize source with
  | error fault => exact .error fault
  | ok tokens =>
      have start : ∀ tokens' : List Placed, (∀ u ∈ tokens', u ∈ tokens) →
          Cursors hidden p ⟨tokens', 0, [[]], s⟩ ⟨tokens', 0, [[]], t⟩ := fun tokens' among =>
        ⟨rfl, rfl, rfl, fun u mem => avoids tokens known u (among u mem), one, below⟩
      have sequence : ∀ (tokens' : List Placed) (x y : Except Fault (List Tree × Cursor)),
          Agree (fun x y => ∃ q, Advance p q ⟨tokens', 0, [[]], s⟩ ⟨tokens', 0, [[]], t⟩ x.2 y.2 ∧
            TreeLists hidden q x.1 y.1 ∧ Cursors hidden q x.2 y.2) x y →
          Agree (fun x y => ∃ q, p ≤ q ∧ q.frames = p.frames ∧ q.IsOneToOne ∧ q.Below x.2 y.2 ∧
              (s ≤ x.2 ∧ t ≤ y.2) ∧ x.1.Alike hidden q y.1)
            (x >>= fun r => Except.ok (Tree.sequence r.1, r.2.serial))
            (y >>= fun r => Except.ok (Tree.sequence r.1, r.2.serial)) := by
        intro tokens' x y run
        cases run with
        | error fault => exact .error fault
        | ok related =>
            obtain ⟨q, advance, trees, cursors⟩ := related
            exact .ok ⟨q, advance.le, advance.frames, cursors.one, cursors.below,
              ⟨advance.left, advance.right⟩, .call (fun _ same => nomatch same) trees⟩
      cases language with
      | rho =>
          exact sequence _ _ _ <| (Rho.tower_alike agrees _).statements p nestingLimit .finish
            (start tokens fun _ mem => mem)
      | pi =>
          exact sequence _ _ _ <| Pi.script_alike (fun _ => Pi.term_alike agrees nestingLimit) _
            (start _ fun _ mem => List.mem_of_mem_filter mem)

end PeerScript.Script
