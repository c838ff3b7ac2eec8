import PeerScript.Proofs.Layout

/-!
# Reading scripts that differ in their layout

The readers of the language of statements read the same in front of similar cursors.  In front of a
statement no line ends are passed over, in parentheses and square brackets all are; `tower_tracks`
carries this from one storey to the next, whatever number of storeys and of steps the first reader
is given, as long as the second has enough.
-/

set_option autoImplicit false

namespace PeerScript.Script.Rho

open Script.Parser
open Text (Position)

variable {w : Whereabouts} {room : Nat}

/-- In front of no more tokens than there is room for, one reader reads what the other reads, and at
least one token. -/
def ReadsOn (room : Nat) (p q : Parser Tree) : Prop :=
  ∀ w : Whereabouts, w.Fits → w.room' ≤ room → Tracks (Similar w) p q (Agreed w.spend)

/-- The readers of one tower read what those of another tower read. -/
structure Inner.Track (room : Nat) (inner inner' : Inner) : Prop where
  expression : ∀ levels, ReadsOn room (inner.expression levels) (inner'.expression levels)
  unary : ∀ levels, ReadsOn room (inner.unary levels) (inner'.unary levels)
  statements : ∀ levels closing (w : Whereabouts), w.Fits → w.brackets = 0 → w.room' ≤ room →
    Tracks (Similar w) (inner.statements levels closing)
      (inner'.statements levels closing) (Agreed w)

theorem nested_tracks {p q : Nat → Parser Tree} (h : ∀ levels, ReadsOn room (p levels) (q levels)) :
    ∀ levels, ReadsOn room (nested p levels) (nested q levels)
  | 0 => fun _ _ _ => .of_fails (.after (fun _ => fails_complainAt _ _) _)
  | levels + 1 => h levels

section Parts

variable {expression expression' : Parser Tree} (h : ReadsOn room expression expression')

include h

theorem expressionList_tracks {close : Symbol} (solid : (Token.symbol close).isSolid = true) :
    ∀ (n m : Nat) (w : Whereabouts), w.Fits → w.room' ≤ room → w.room' ≤ m →
      Tracks (Similar w) (expressionList expression close n) (expressionList expression' close m)
        (Agreed (w.behind (.symbol close)))
  | 0, _, _, _, _, _ => .of_fails (fails_complain _)
  | n + 1, 0, w, _, _, enough => .of_pos fun _ some => by omega
  | n + 1, m + 1, w, fits, inside, enough => .of_pos fun _ some => by
      rw [expressionList, expressionList]
      refine Tracks.check fits solid ?_ ?_
      · exact Tracks.advanceThen solid fun _ _ => Tracks.done []
      have rest : ∀ (first : Tree) (w' : Whereabouts), w'.stack = w.stack →
          w'.brackets = w.brackets → w'.room ≤ w.room - 1 → w'.room' ≤ w.room' - 1 →
          Tracks (Similar w') (do
            let rest ← expressionList expression close n
            return first :: rest) (do
            let rest ← expressionList expression' close m
            return first :: rest) (Agreed (w.behind (.symbol close))) := by
        intro first w' stack brackets less less'
        have fits' : w'.Fits := by
          unfold Whereabouts.Fits
          rw [stack, brackets]
          exact fits
        have read := expressionList_tracks solid n m w' fits' (by omega) (by omega)
        refine (read.andThen fun rest => Tracks.done (first :: rest)).widen ?_ brackets ?_ ?_
        · exact congrArg (fun stack => Token.opened stack (.symbol close)) stack
        · change w'.room - 1 ≤ w.room - 1
          omega
        · change w'.room' - 1 ≤ w.room' - 1
          omega
      have items : Tracks (Similar w) (do
          let first ← expression
          if ← check .comma then
            let _ ← advance
          else unless ← check close do
            complain (.expected "',' or closing delimiter" (← peek))
          let rest ← expressionList expression close n
          return first :: rest) (do
          let first ← expression'
          if ← check .comma then
            let _ ← advance
          else unless ← check close do
            complain (.expected "',' or closing delimiter" (← peek))
          let rest ← expressionList expression' close m
          return first :: rest) (Agreed (w.behind (.symbol close))) := by
        refine (h w fits inside).andThen fun first => ?_
        refine Tracks.check (w := w.spend) fits (by rfl) ?_ ?_
        · exact Tracks.advanceThen (by rfl) fun _ _ =>
            rest first _ rfl rfl (Nat.sub_le _ _) (Nat.sub_le _ _)
        · refine Tracks.check (w := w.spend) fits solid ?_ ?_
          · exact (rest first w.spend rfl rfl (Nat.le_refl _) (Nat.le_refl _)).from_
              fun c d meets => meets.toSimilar
          · exact .of_fails (.after (fun _ => .before (fails_complain _) _) _)
      refine (Tracks.peek fits).bind fun t u => ?_
      split
      · exact .of_fails (fails_complain _)
      rename_i goesOn
      split
      · intro c d _ _ meets
        exact absurd (meets.finish_iff.mpr rfl) goesOn
      · exact items.from_ fun c d meets => meets.toSimilar

theorem bracketedList_tracks (opening close : Symbol) (solid : (Token.symbol close).isSolid = true)
    (closes : ∀ stack, (Token.symbol close).opened (opening :: stack) = stack)
    (loose : isLoose (opening :: w.stack) = true) (inside : w.room' ≤ room) :
    Tracks (Similar { w with stack := opening :: w.stack })
      (bracketed (do expressionList expression close (← remaining)))
      (bracketed (do expressionList expression' close (← remaining))) (Agreed w.spend) := by
  refine Tracks.bracketed (Tracks.remaining fun n m few few' => ?_)
  have fits : Whereabouts.Fits ⟨opening :: w.stack, w.brackets + 1, n, m⟩ :=
    ⟨fun _ => loose, fun _ => Nat.succ_pos _⟩
  refine (expressionList_tracks h solid n m _ fits (Nat.le_trans few' inside) (Nat.le_refl m)).widen
    (closes _) rfl ?_ ?_
  · exact Nat.sub_le_sub_right few 1
  · exact Nat.sub_le_sub_right few' 1

end Parts

theorem members_tracks (place place' : Position) :
    ∀ (n m : Nat) (w : Whereabouts), w.Fits → w.room ≤ n →
    w.room' ≤ m → Tracks (Similar w) (members place n) (members place' m) (Agreed w)
  | 0, _, w, _, enough, _ => .of_pos fun some _ => by omega
  | n + 1, 0, w, _, _, enough => .of_pos fun _ some => by omega
  | n + 1, m + 1, w, fits, enough, enough' => by
      rw [members, members]
      refine Tracks.check fits (by rfl) (Tracks.advanceThen (by rfl) fun _ _ => ?_) (Tracks.done [])
      refine Tracks.take (w := w.behind (.symbol .dot)) fits
        (fun x hollow => ?_) fun x y same solid => ?_
      · split
        · rename_i shape
          exact nomatch (shape ▸ hollow :)
        · exact fails_complainAt _ _
      · rw [← same]
        split
        · rename_i name shape
          rw [shape]
          have further :=
            members_tracks place place' n m ((w.behind (.symbol .dot)).behind (.name name)) fits
          refine ((further ?_ ?_).andThen fun rest => Tracks.done (name :: rest)).widen
            rfl rfl ?_ ?_
          · change w.room - 1 - 1 ≤ n
            omega
          · change w.room' - 1 - 1 ≤ m
            omega
          · change w.room - 1 - 1 ≤ w.room
            omega
          · change w.room' - 1 - 1 ≤ w.room'
            omega
        · exact .of_fails (fails_complainAt _ _)

/-- Parameters stand in parentheses. -/
theorem parameters_tracks : ∀ (n m : Nat) (w : Whereabouts), w.Fits → w.room' ≤ m →
    Tracks (Similar w) (parameters n) (parameters m) (Agreed (w.behind (.symbol .rParen)))
  | 0, _, _, _, _ => .of_fails (.after (fun _ => fails_complain _) _)
  | n + 1, 0, w, _, enough => .of_pos fun _ some => by omega
  | n + 1, m + 1, w, fits, enough => by
      rw [parameters, parameters]
      refine Tracks.take fits (fun x hollow => ?_) fun x y same solid => ?_
      · split
        · rename_i shape
          exact nomatch (shape ▸ hollow :)
        · rename_i shape
          exact nomatch (shape ▸ hollow :)
        · exact fails_complain _
      · rw [← same]
        split
        · rename_i shape
          rw [shape]
          exact Tracks.done []
        · rename_i name shape
          rw [shape]
          have rest : ∀ w' : Whereabouts, w'.stack = w.stack → w'.brackets = w.brackets →
              w'.room ≤ w.room - 1 → w'.room' ≤ w.room' - 1 →
              Tracks (Similar w') (do
                let rest ← parameters n
                return name :: rest) (do
                let rest ← parameters m
                return name :: rest) (Agreed (w.behind (.symbol .rParen))) := by
            intro w' stack brackets less less'
            have fits' : w'.Fits := by
              unfold Whereabouts.Fits
              rw [stack, brackets]
              exact fits
            refine ((parameters_tracks n m w' fits' (by omega)).andThen fun rest =>
              Tracks.done (name :: rest)).widen ?_ brackets ?_ ?_
            · exact congrArg (fun stack => Token.opened stack (.symbol .rParen)) stack
            · change w'.room - 1 ≤ w.room - 1
              omega
            · change w'.room' - 1 ≤ w.room' - 1
              omega
          refine (Tracks.define name).andThen fun _ => ?_
          refine Tracks.check (w := w.behind (.name name)) fits (by rfl) ?_ ?_
          · exact Tracks.advanceThen (by rfl) fun _ _ => rest _ rfl rfl (Nat.sub_le _ _)
              (Nat.sub_le _ _)
          · exact rest _ rfl rfl (Nat.le_refl _) (Nat.le_refl _)
        · exact .of_fails (fails_complain _)

section Functions

variable {statements statements' : Closing → Parser (List Tree)}
  (inside : ∀ closing (w : Whereabouts), w.Fits → w.brackets = 0 → w.room' ≤ room →
    Tracks (Similar w) (statements closing) (statements' closing) (Agreed w))

include inside

/-- Line ends count inside of a body, however many brackets are open around it. -/
theorem block_tracks (few : w.room' ≤ room) :
    Tracks (Similar { w with stack := .lBrace :: w.stack }) (block statements) (block statements')
      (Agreed w.spend) := by
  rw [block, block]
  refine Tracks.get.bind fun outer outer' => ?_
  refine Tracks.knowing (P := outer.brackets = w.brackets ∧ outer'.brackets = w.brackets) ?_
    fun ⟨left, right⟩ => ?_
  · rintro c d ⟨rfl, rfl, similar⟩
    exact ⟨similar.left, similar.right⟩
  rw [left, right]
  refine Tracks.from_ (?_ : Tracks (Similar { w with stack := .lBrace :: w.stack }) _ _ _)
    fun c d ⟨_, _, similar⟩ => similar
  refine (Tracks.step ⟨.lBrace :: w.stack, 0, w.room, w.room'⟩ fun c d similar =>
    similar.rebracket 0).andThen fun _ => ?_
  have strict : Whereabouts.Fits ⟨.lBrace :: w.stack, 0, w.room, w.room'⟩ := by
    constructor <;> exact fun h => nomatch h
  refine (inside .brace _ strict rfl few).andThen fun ts => ?_
  refine Tracks.check strict (by rfl) (Tracks.advanceThen (by rfl) fun _ _ => ?_)
    (.of_fails (fails_complain _))
  exact (Tracks.step w.spend fun c d similar => similar.rebracket w.brackets).andThen fun _ =>
    Tracks.done _

theorem function_tracks (fits : w.Fits) (few : w.room' ≤ room + 1) :
    Tracks (Similar w) (function statements) (function statements') (Agreed w.spend) := by
  rw [function, function]
  refine (Tracks.expect fits (by rfl) _).andThen fun _ => Tracks.body ?_
  have params : Tracks (Similar (w.behind (.symbol .lParen)))
      (bracketed (do parameters (← remaining)))
      (bracketed (do parameters (← remaining))) (Agreed w.spend) := by
    refine Tracks.bracketed (Tracks.remaining fun n m few few' => ?_)
    have loose : Whereabouts.Fits ⟨.lParen :: w.stack, w.brackets + 1, n, m⟩ :=
      ⟨fun _ => rfl, fun _ => Nat.succ_pos _⟩
    refine (parameters_tracks n m _ loose (Nat.le_refl m)).widen rfl rfl ?_ ?_
    · exact Nat.le_trans (Nat.sub_le _ _) few
    · exact Nat.le_trans (Nat.sub_le _ _) few'
  refine params.andThen fun params =>
    (Tracks.expect (w := w.spend) fits (by rfl) _).andThen fun _ => ?_
  have body : Tracks (Similar (w.spend.behind (.symbol .lBrace))) (block statements)
      (block statements') (Agreed w.spend.spend.spend) := by
    refine block_tracks inside (w := w.spend.spend) ?_
    change w.room' - 1 - 1 ≤ room
    omega
  refine (body.andThen fun t => Tracks.done _).widen rfl rfl ?_ ?_
  · exact Nat.le_trans (Nat.sub_le _ _) (Nat.sub_le _ _)
  · exact Nat.le_trans (Nat.sub_le _ _) (Nat.sub_le _ _)

end Functions

/-- An operator is neither a separator nor a delimiter. -/
structure Inert (operators : List (Symbol × Operator)) : Prop where
  solid : ∀ mark operator, operators.lookup mark = some operator →
    (Token.symbol mark).isSolid = true
  flat : ∀ mark operator stack, operators.lookup mark = some operator →
    (Token.symbol mark).opened stack = stack

theorem inert_of_mem {operators : List (Symbol × Operator)} (level : operators ∈ precedence) :
    Inert operators := by
  have marks : ∀ mark operator, operators.lookup mark = some operator →
      (Token.symbol mark).isSolid = true ∧ ∀ stack, (Token.symbol mark).opened stack = stack := by
    intro mark operator found
    simp only [precedence, List.mem_cons, List.not_mem_nil, or_false] at level
    rcases level with rfl | rfl | rfl | rfl | rfl | rfl <;> cases mark <;>
      first | exact ⟨rfl, fun _ => rfl⟩ | exact nomatch found
  exact ⟨fun mark operator found => (marks mark operator found).1,
    fun mark operator stack found => (marks mark operator found).2 stack⟩

theorem Inert.none_of_hollow {operators : List (Symbol × Operator)}
    (inert : Inert operators) {t : Token} (hollow : t.isSolid = false) :
    operatorOf? operators t = none := by
  cases found : operatorOf? operators t with
  | none => rfl
  | some operator =>
      cases t with
      | symbol mark => exact nomatch (inert.solid mark operator found).symm.trans hollow
      | _ => exact nomatch found

theorem chain_tracks {operators : List (Symbol × Operator)} (inert : Inert operators)
    {operand operand' : Parser Tree} (reads : ReadsOn room operand operand') :
    ∀ (n m : Nat) (left : Tree) (w : Whereabouts), w.Fits →
      w.room ≤ n → w.room' ≤ m → w.room' ≤ room →
      Tracks (Similar w) (chain operators operand n left)
        (chain operators operand' m left) (Agreed w)
  | 0, _, _, _, _, enough, _, _ => .of_pos fun some _ => by omega
  | n + 1, 0, _, _, _, _, enough, _ => .of_pos fun _ some => by omega
  | n + 1, m + 1, left, w, fits, enough, enough', few => by
      rw [chain, chain]
      refine Tracks.peeked fits (fun t isSolid => ?_) fun t u hollow hollow' => ?_
      · split
        · exact (Tracks.done left).from_ fun c d meets => meets.toSimilar
        · rename_i operator found
          have flat : w.behind t = w.spend := by
            have flat : t.opened w.stack = w.stack := by
              cases t with
              | symbol mark => exact inert.flat mark operator w.stack found
              | _ => exact nomatch found
            rw [Whereabouts.behind, flat]
            rfl
          refine Tracks.advanceThen isSolid fun _ _ => ?_
          rw [flat]
          refine (reads w.spend fits (Nat.le_trans (Nat.sub_le _ _) few)).andThen fun right => ?_
          refine (chain_tracks inert reads n m _ w.spend.spend fits ?_ ?_ ?_).widen rfl rfl ?_ ?_
          · change w.room - 1 - 1 ≤ n
            omega
          · change w.room' - 1 - 1 ≤ m
            omega
          · change w.room' - 1 - 1 ≤ room
            omega
          · exact Nat.le_trans (Nat.sub_le _ _) (Nat.sub_le _ _)
          · exact Nat.le_trans (Nat.sub_le _ _) (Nat.sub_le _ _)
      · rw [inert.none_of_hollow hollow, inert.none_of_hollow hollow']
        exact Tracks.done left

theorem binary_tracks {operand operand' : Parser Tree} (reads : ReadsOn room operand operand') :
    ∀ levels : List (List (Symbol × Operator)), (∀ operators ∈ levels, Inert operators) →
      ReadsOn room (binary operand levels) (binary operand' levels)
  | [], _ => reads
  | operators :: tighter, inert => fun w fits few => by
      have inner := binary_tracks reads tighter fun _ mem => inert _ (List.mem_cons_of_mem _ mem)
      rw [binary, binary]
      refine (inner w fits few).andThen fun first => Tracks.remaining fun n m less less' => ?_
      refine (chain_tracks (inert _ List.mem_cons_self) inner n m first (w.spend.within n m) fits
        (Nat.le_refl n) (Nat.le_refl m) ?_).widen rfl rfl less less'
      exact Nat.le_trans less' (Nat.le_trans (Nat.sub_le _ _) few)

theorem separates_eq : separates = fun t => t.token.separates := by
  funext ⟨t, _⟩
  cases t <;> rfl

/-- Tokens that look alike end a statement at the same places. -/
theorem ends_of_alike {closing : Closing} {x y : Placed} (alike : Alike x.token y.token) :
    (separates x || closing.isAt x.token) = (separates y || closing.isAt y.token) := by
  rw [separates_eq]
  rcases alike with same | ⟨separates, separates'⟩
  · simp only [same]
  · simp only [separates, separates', Bool.true_or]

theorem statementsWith_tracks {statement statement' : Parser Tree} (closing : Closing)
    (reads : ∀ w : Whereabouts, w.Fits → w.brackets = 0 → w.room' ≤ room →
      Tracks (Similar w) statement statement' (Agreed w.spend)) :
    ∀ (n m : Nat) (w : Whereabouts), w.Fits → w.brackets = 0 → w.room ≤ n → w.room' ≤ m →
    w.room' ≤ room →
      Tracks (Similar w) (statementsWith statement closing n)
        (statementsWith statement' closing m) (Agreed w)
  | 0, _, _, _, _, enough, _, _ => .of_pos fun some _ => by omega
  | n + 1, 0, _, _, _, _, enough, _ => .of_pos fun _ some => by omega
  | n + 1, m + 1, w, fits, strict, enough, enough', few => by
      have strict' : isLoose w.stack = false := by
        cases loose : isLoose w.stack with
        | false => rfl
        | true =>
            have some := fits.mpr loose
            omega
      rw [statementsWith, statementsWith]
      have dropped : Tracks (Similar w)
          (modify fun c => { c with rest := c.rest.dropWhile separates } : Parser PUnit)
          (modify fun c => { c with rest := c.rest.dropWhile separates }) fun _ _ c d =>
          Similar w c d ∧ c.next.token = d.next.token := by
        intro c d a c' similar ran
        rw [separates_eq] at ran ⊢
        cases ran
        exact ⟨_, _, rfl, similar.dropSeparators strict'⟩
      have start : Tracks (fun c d => Similar w c d ∧ c.next.token = d.next.token) here
          here fun x y c d =>
          x.token = y.token ∧ Similar w c d := by
        intro c d a c' ⟨similar, same⟩ ran
        cases ran
        exact ⟨_, _, here_eq d, same, similar⟩
      refine dropped.bind fun _ _ => start.bind fun x y => Tracks.knowing
        (fun _ _ h => h.1) fun same => ?_
      rw [same]
      refine Tracks.from_ (?_ : Tracks (Similar w) _ _ _) fun _ _ h => h.2
      split
      · exact Tracks.done []
      refine (reads w fits strict few).andThen fun first => ?_
      refine (Tracks.here (w := w.spend) strict fits).bind fun x y => ?_
      refine Tracks.knowing (fun _ _ meets => meets.alike) fun alike => ?_
      rw [ends_of_alike alike]
      split
      · have rest := statementsWith_tracks closing reads n m w.spend fits strict
        refine Tracks.from_ (?_ : Tracks (Similar w.spend) _ _ _) fun _ _ meets => meets.toSimilar
        refine ((rest ?_ ?_ ?_).andThen fun rest => Tracks.done (first :: rest)).widen rfl rfl
          (Nat.sub_le _ _) (Nat.sub_le _ _)
        · change w.room - 1 ≤ n
          omega
        · change w.room' - 1 ≤ m
          omega
        · exact Nat.le_trans (Nat.sub_le _ _) few
      · exact .of_fails (fails_complain _)

/-- What a statement is, by its first token and the one behind it. -/
def statementOf (function expression : Parser Tree) (second : Option Token) (first : Token) :
    Parser Tree :=
  match first, second with
  | .name first, some (.name name) =>
      if first = keyword then do
        let _ ← advance
        let _ ← advance
        define name
        return .bind name (← function)
      else expression
  | .name name, some (.symbol .assign) => do
      let _ ← advance
      let _ ← advance
      define name
      return .bind name (← expression)
  | _, _ => expression

theorem statement_eq_statementOf (ctx : Context) (inner : Inner) (levels : Nat) :
    statement ctx inner levels = (do
      statementOf (function (inner.statements levels)) (expression ctx inner levels)
        (((← MonadState.get).rest.drop 1).head?.map Placed.token) (← peek)) := rfl

section Storey

variable {ctx : Context} {inner inner' : Inner} (tracks : inner.Track room inner')

include tracks

theorem path_tracks (levels : Nat) (first : String) (place place' : Position) (fits : w.Fits)
    (few : w.room' ≤ room) :
    Tracks (Similar w) (path ctx (inner.expression levels) first place)
      (path ctx (inner'.expression levels) first place') (Agreed w) := by
  rw [path, path]
  refine Tracks.remaining fun n m less less' => ?_
  refine (members_tracks place place' n m (w.within n m) fits (Nat.le_refl n)
    (Nat.le_refl m)).andThen fun others => ?_
  refine Tracks.check (w := w.within n m) fits (by rfl) ?_ ?_
  · refine Tracks.advanceThen (by rfl) fun _ _ => ?_
    have args :=
      bracketedList_tracks (tracks.expression levels) .lParen .rParen (by rfl) (fun _ => rfl)
      (w := (w.within n m).spend) rfl (Nat.le_trans (Nat.sub_le _ _) (Nat.le_trans less' few))
    refine args.andThen fun args => (Tracks.call ctx _ args place place').widen rfl rfl ?_ ?_
    · exact Nat.le_trans (Nat.sub_le _ _) (Nat.le_trans (Nat.sub_le _ _) less)
    · exact Nat.le_trans (Nat.sub_le _ _) (Nat.le_trans (Nat.sub_le _ _) less')
  · exact (Tracks.reference ctx _ place place').widen rfl rfl less less'

theorem primary_tracks (levels : Nat) :
    ReadsOn (room + 1) (primary ctx inner levels) (primary ctx inner' levels) := by
  intro w fits few
  have few' : w.room' - 1 ≤ room := by omega
  rw [primary, primary]
  refine Tracks.take fits (fun x hollow => ?_) fun x y same solid => ?_
  · split <;> rename_i shape <;>
      first | exact fails_complainAt _ _ | exact nomatch (shape ▸ hollow :)
  rw [← same]
  split <;> rename_i shape <;> try rw [shape]
  · exact Tracks.done _
  · exact Tracks.done _
  · exact Tracks.done _
  · exact Tracks.done _
  · exact Tracks.done _
  · split
    · exact (function_tracks (tracks.statements levels) (w := w.spend) fits
        (Nat.le_succ_of_le few')).widen rfl rfl (Nat.sub_le _ _) (Nat.sub_le _ _)
    · exact path_tracks tracks levels _ _ _ (w := w.spend) fits few'
  · have loose : Whereabouts.Fits ⟨.lParen :: w.stack, w.brackets + 1, w.room - 1, w.room' - 1⟩ :=
      ⟨fun _ => rfl, fun _ => Nat.succ_pos _⟩
    refine Tracks.bracketed ?_
    refine (tracks.expression levels _ loose few').andThen fun inside => ?_
    refine ((Tracks.expect
      (w := ⟨.lParen :: w.stack, w.brackets + 1, w.room - 1 - 1, w.room' - 1 - 1⟩) loose (by rfl)
      _).andThen fun _ => Tracks.done inside).widen rfl rfl ?_ ?_
    · exact Nat.le_trans (Nat.sub_le _ _) (Nat.sub_le _ _)
    · exact Nat.le_trans (Nat.sub_le _ _) (Nat.sub_le _ _)
  · have items :=
      bracketedList_tracks (tracks.expression levels) .lBracket .rBracket (by rfl) (fun _ => rfl)
      (w := w.spend) rfl few'
    exact (items.andThen fun items => Tracks.done _).widen rfl rfl (Nat.sub_le _ _) (Nat.sub_le _ _)
  · refine Tracks.body ?_
    exact ((block_tracks (tracks.statements levels) (w := w.spend) few').andThen fun t =>
      Tracks.done _).widen rfl rfl (Nat.sub_le _ _) (Nat.sub_le _ _)
  · exact .of_fails (fails_complainAt _ _)

theorem unary_tracks (levels : Nat) :
    ReadsOn (room + 1) (unary ctx inner levels) (unary ctx inner' levels) := by
  intro w fits few
  have plain : Tracks _ (primary ctx _ _) _ _ := primary_tracks tracks levels w fits few
  -- The operand stands behind the operator, so the readers of the storey below are enough.
  have operand : ∀ {t : Token} (f : Tree → Tree), t.isSolid = true → t.opened w.stack = w.stack →
      Tracks (Meets w t t) (do
        let _ ← advance
        return f (← nested inner.unary levels)) (do
        let _ ← advance
        return f (← nested inner'.unary levels)) (Agreed w.spend) := by
    intro t f solid flat
    refine Tracks.advanceThen solid fun _ _ => ?_
    rw [Whereabouts.behind, flat]
    refine ((nested_tracks tracks.unary levels w.spend fits ?_).andThen fun operand =>
      Tracks.done (f operand)).widen rfl rfl (Nat.sub_le _ _) (Nat.sub_le _ _)
    change w.room' - 1 ≤ room
    omega
  rw [unary, unary]
  refine Tracks.peeked fits (fun t solid => ?_) fun t u hollow hollow' => ?_
  · split
    · exact operand (fun t => .op .not [t]) rfl rfl
    · exact operand negated rfl rfl
    · exact plain.from_ fun c d meets => meets.toSimilar
  · split
    · exact nomatch hollow
    · exact nomatch hollow
    · split
      · exact nomatch hollow'
      · exact nomatch hollow'
      · exact plain

theorem expression_tracks (levels : Nat) :
    ReadsOn (room + 1) (expression ctx inner levels) (expression ctx inner' levels) :=
  nested_tracks (fun levels => binary_tracks (unary_tracks tracks levels) precedence fun _ =>
    inert_of_mem) levels

theorem statement_tracks (levels : Nat) (fits : w.Fits) (strict : w.brackets = 0)
    (few : w.room' ≤ room + 1) :
    Tracks (Similar w) (statement ctx inner levels) (statement ctx inner' levels)
      (Agreed w.spend) := by
  have plain : Tracks _ (expression ctx _ _) _ _ := expression_tracks tracks levels w fits few
  -- The name is in view in the value that it is bound to, which stands behind two tokens.
  have binding : ∀ (name : String) {value value' : Parser Tree} {t t' : Token},
      ReadsOn (room + 1) value value' →
      t.isSolid = true → t'.isSolid = true → t.opened w.stack = w.stack →
      t'.opened w.stack = w.stack →
      Tracks (fun c d => Meets w t t c d ∧ Meets (w.behind t) t' t' c.behind d.behind) (do
        let _ ← advance
        let _ ← advance
        define name
        return .bind name (← value) : Parser Tree) (do
        let _ ← advance
        let _ ← advance
        define name
        return .bind name (← value')) (Agreed w.spend) := by
    intro name value value' t t' reads solid solid' flat flat'
    have moved : (w.behind t).behind t' = w.spend.spend := by
      rw [Whereabouts.behind, Whereabouts.behind]
      simp only [Whereabouts.spend, flat, flat']
    refine Tracks.bind (?_ : Tracks _ _ _ fun _ _ => Meets (w.behind t) t' t') fun _ _ => ?_
    · intro c d x c' ⟨meets, second⟩ ran
      rw [advance_eq, meets.settled] at ran
      cases ran
      exact ⟨d.next, d.behind, by rw [advance_eq, meets.settled'], second⟩
    · refine Tracks.advanceThen solid' fun _ _ => (Tracks.define name).andThen fun _ => ?_
      rw [moved]
      refine ((reads w.spend.spend fits ?_).andThen fun value => Tracks.done _).widen rfl rfl ?_ ?_
      · exact Nat.le_trans (Nat.sub_le _ _) (Nat.le_trans (Nat.sub_le _ _) few)
      · exact Nat.le_trans (Nat.sub_le _ _) (Nat.sub_le _ _)
      · exact Nat.le_trans (Nat.sub_le _ _) (Nat.sub_le _ _)
  have function : ReadsOn (room + 1) (function (inner.statements levels))
      (function (inner'.statements levels)) :=
    fun _ => function_tracks (tracks.statements levels)
  rw [statement_eq_statementOf, statement_eq_statementOf]
  refine Tracks.ahead strict fits (fun first t solid => ?_) fun t t' u u' hollow hollow' => ?_
  · have plain' : Tracks (fun c d => Meets w (.name first) (.name first) c d ∧
      Meets (w.behind (.name first)) t t c.behind d.behind) _ _ _ :=
        plain.from_ fun c d h => h.1.toSimilar
    unfold statementOf
    split
    · rename_i second
      cases second
      split
      · exact binding _ function rfl rfl rfl rfl
      · exact plain'
    · rename_i second
      cases second
      exact binding _ (expression_tracks tracks levels) rfl rfl rfl rfl
    · exact plain'
  · have other : ∀ {t : Token} {t' : Option Token} {function expression : Parser Tree},
        (∀ first t₂, t = .name first → t' = some t₂ → t₂.isSolid = false) →
        statementOf function expression t' t = expression := by
      intro t t' function expression hollow
      unfold statementOf
      split
      · exact nomatch hollow _ _ rfl rfl
      · exact nomatch hollow _ _ rfl rfl
      · rfl
    rw [other hollow, other hollow']
    exact plain

theorem storey_tracks : (storey ctx inner).Track (room + 1) (storey ctx inner') where
  expression := expression_tracks tracks
  unary := unary_tracks tracks
  statements levels closing w fits strict few := Tracks.remaining fun n m less less' =>
    (statementsWith_tracks closing (fun _ => statement_tracks tracks levels) n m
      (w.within n m) fits strict
      (Nat.le_refl n) (Nat.le_refl m) (Nat.le_trans less' few)).widen rfl rfl less less'

end Storey

/-- What is read with any number of storeys is also read with as many storeys as there are
tokens. -/
theorem tower_tracks (ctx : Context) : ∀ height room, (tower ctx height).Track room (tower ctx room)
  | 0, _ =>
    ⟨fun _ _ _ _ => .of_fails (fails_complain _), fun _ _ _ _ => .of_fails (fails_complain _),
      fun _ _ _ _ _ _ => .of_fails (fails_complain _)⟩
  | _ + 1, 0 =>
    ⟨fun _ _ _ few => .of_pos fun _ some => by omega,
      fun _ _ _ few => .of_pos fun _ some => by omega,
      fun _ _ _ _ _ few => .of_pos fun _ some => by omega⟩
  | height + 1, room + 1 =>
      have tracks : (storey ctx _).Track _ (storey ctx _) :=
        storey_tracks (tower_tracks ctx height room)
      ⟨tracks.expression, tracks.unary, tracks.statements⟩

end PeerScript.Script.Rho
