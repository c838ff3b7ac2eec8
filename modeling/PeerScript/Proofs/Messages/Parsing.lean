import PeerScript.Proofs.Messages.Compact
import PeerScript.Proofs.Messages.Statements
import PeerScript.Proofs.Messages.Texts

/-!
# The tree of two texts

Two texts with a line end between them are read as one: the trees of the first one, and then those
of the second one, in which the instances have the numbers that come next.
-/

set_option autoImplicit false

namespace PeerScript.Script

open PeerScript.Script.Parser

theorem Pi.beginsTerm_of_term {ctx : Context} {levels : Nat} {c : Cursor} {r : Tree × Cursor}
    (ran : Pi.term ctx levels c = .ok r) : Pi.beginsTerm c.settled.next.token = true := by
  cases levels with
  | zero => exact absurd ran (Fails.after (fun _ => fails_complainAt _ _) _ _ _)
  | succ levels =>
      rw [Pi.term, Pi.termWith, bind_of_ok (advance_eq c)] at ran
      generalize c.settled.next = first at ran
      obtain ⟨t, place⟩ := first
      cases t with
      | symbol mark => cases mark <;> first | rfl | cases ran
      | newline => cases ran
      | finish => cases ran
      | _ => rfl

/-- Every text ends, once. -/
theorem tokenize_whole {source : String} {placed : List Placed}
    (read : tokenize source = .ok placed) :
    ∃ before, placed.map Placed.token = before ++ [.finish] ∧ .finish ∉ before := by
  obtain ⟨before, shown, unfinished, -⟩ := tokens_append endsLine_nil Lexes.nil read
  exact ⟨before, shown, unfinished⟩

namespace Language

/-- Whether a token counts. -/
def counts : Language → Token → Bool
  | .rho, _ => true
  | .pi, t => !t.isNewline

/-- How the trees of a script follow each other. -/
def layout : Language → Layout
  | .rho => Rho.layout .finish
  | .pi => Pi.layout

/-- What reads a tree of a script that has at most the given number of tokens. -/
def item (ctx : Context) (size : Nat) : Language → Parser Tree
  | .rho => Rho.statement ctx (Rho.tower ctx size) nestingLimit
  | .pi => Pi.term ctx nestingLimit

/-- Reads trees to the end of a script, of which there are at most so many. -/
def loop (ctx : Context) (size : Nat) (language : Language) (allowance : Nat) :
    Parser (List Tree) :=
  match language with
  | .rho => Rho.statementsWith (Language.rho.item ctx size) .finish allowance
  | .pi => Pi.script (Language.pi.item ctx size) allowance

/-- What may stand where a text ends. -/
def IsSeam (s : Seam) : Language → Prop
  | .rho => Rho.IsSeam s
  | .pi => Pi.IsSeam s

/-- The cursor in front of a script. -/
def start (language : Language) (tokens : List Placed) (serial : Nat) : Cursor :=
  ⟨tokens.filter fun t => language.counts t.token, 0, [[]], serial⟩

variable {language : Language} {s : Seam} {ctx : Context}

theorem item_carries (seam : language.IsSeam s) {size size' : Nat} (le : size ≤ size')
    (room : Nat) :
    Carries s .loose room anywhere (language.item s.alone size) (language.item s.joint size')
      (Taken s) := by
  cases language with
  | rho => exact Rho.statement_carries seam (Rho.tower_carries seam le) nestingLimit
  | pi => exact Pi.term_carries seam nestingLimit

theorem tokens_start (language : Language) (tokens : List Placed) (serial : Nat) :
    (language.start tokens serial).tokens = (tokens.map Placed.token).filter language.counts := by
  rw [List.filter_map]
  rfl

theorem start_whole {source : String} {tokens : List Placed} (read : tokenize source = .ok tokens)
    (serial : Nat) : (language.start tokens serial).IsWhole := by
  obtain ⟨before, shown, unfinished⟩ := tokenize_whole read
  refine ⟨⟨before.filter language.counts, ?_, fun mem => unfinished (List.mem_of_mem_filter mem)⟩,
    List.cons_ne_nil _ _⟩
  rw [tokens_start, shown, List.filter_append]
  cases language <;> rfl

end Language

/-- The seam at the end of a text that is read in front of something else. -/
def Seam.ahead (ctx : Context) (uniform : ctx.registry.IsUniform) (limit : Nat) (edge : List Token)
    (isSharp : Bool) (edge_ne : edge ≠ [])
    (not_newline : isSharp = false → edge.headD .finish ≠ .newline) : Seam where
  edge := edge
  isSharp := isSharp
  base := []
  alone := ctx
  joint := ctx
  numbers := id
  start := 0
  limit := limit
  shift := 0
  edge_ne := edge_ne
  not_newline := not_newline
  bound _ := rfl
  registry := rfl
  uniform := uniform
  injective := Function.injective_id
  window _ _ _ := rfl

namespace Language

variable {language : Language} {ctx : Context} {source : String} {tokens : List Placed}
  {serial n : Nat}

/-- The end of the script may stand where a text ends. -/
theorem isSeam_finish {s : Seam} (edge : s.edge = [.finish]) (blunt : s.isSharp = false) :
    language.IsSeam s := by
  have next : s.head = .finish := by
    rw [Seam.head, edge]
    rfl
  cases language with
  | rho => exact Rho.IsSeam.mk (fun sharp => by cases blunt.symm.trans sharp) fun _ => next
  | pi => exact ⟨blunt, .inl next⟩

theorem closes_iff {t : Token} : language.layout.closes t = true ↔ t = .finish := by
  cases language with
  | rho =>
      cases t with
      | symbol mark => cases mark <;> constructor <;> rintro ⟨⟩
      | finish => exact ⟨fun _ => rfl, fun _ => rfl⟩
      | _ => constructor <;> rintro ⟨⟩
  | pi => cases t <;> first | exact ⟨fun _ => rfl, fun _ => rfl⟩ | (constructor <;> rintro ⟨⟩)

/-- What stands behind a list is the end of the script. -/
theorem over_of_lists {item : Parser Tree} {c c' : Cursor} {ts : List Tree}
    (lists : Lists language.layout item c ts c') (whole : c'.IsWhole) : c'.IsOver :=
  whole.over_iff.mpr (closes_iff.mp lists.closed)

/-- A tree uses up tokens. -/
theorem item_uses (uniform : ctx.registry.IsUniform) {size : Nat} {c c' : Cursor} {t : Tree}
    (whole : c.IsWhole) (read : language.item ctx size c = .ok (t, c')) :
    ∃ new, c.Moved new c' ∧ 0 < new.used := by
  let s : Seam := .ahead ctx uniform 0 [.finish] false (List.cons_ne_nil _ _) fun _ => nofun
  have seam : language.IsSeam s := isSeam_finish rfl rfl
  obtain ⟨new, _, moved, taken⟩ :=
    (item_carries seam (Nat.le_refl size) _ whole (Nat.le_refl _) trivial read).moved
  exact ⟨new, moved, taken.used⟩

theorem parse_eq (language : Language) (ctx : Context) (serial : Nat)
    (lexed : tokenize source = .ok tokens) :
    parse language ctx source serial =
      (language.loop ctx tokens.length (language.start tokens serial).rest.length
        (language.start tokens serial)).map fun r => (.sequence r.1, r.2.serial) := by
  rw [parse, lexed]
  cases language with
  | rho =>
      have all : Language.rho.start tokens serial = ⟨tokens, 0, [[]], serial⟩ := by
        simp [start, counts]
      rw [all]
      change ((Language.rho.loop ctx tokens.length tokens.length _) >>= _) = _
      cases Language.rho.loop ctx tokens.length tokens.length ⟨tokens, 0, [[]], serial⟩ <;> rfl
  | pi =>
      have counted : Language.pi.start tokens serial =
          ⟨tokens.filter Pi.counts, 0, [[]], serial⟩ := by
        rw [start]
        congr 2
        funext t
        obtain ⟨t, place⟩ := t
        cases t <;> rfl
      rw [counted]
      change ((Language.pi.loop ctx tokens.length (tokens.filter Pi.counts).length _) >>= _) = _
      cases Language.pi.loop ctx tokens.length (tokens.filter Pi.counts).length _ <;> rfl

theorem lists_of_parse (uniform : ctx.registry.IsUniform) (lexed : tokenize source = .ok tokens)
    {tree : Tree} (ran : parse language ctx source serial = .ok (tree, n)) :
    ∃ ts c', tree = .sequence ts ∧ n = c'.serial ∧
      Lists language.layout (language.item ctx tokens.length)
        (language.start tokens serial) ts c' := by
  have whole : (language.start tokens serial).IsWhole := start_whole lexed serial
  rw [parse_eq language ctx serial lexed] at ran
  cases looped : language.loop ctx tokens.length (language.start tokens serial).rest.length
      (language.start tokens serial) with
  | error fault =>
      rw [looped] at ran
      exact nomatch ran
  | ok r =>
      obtain ⟨ts, c'⟩ := r
      rw [looped] at ran
      obtain ⟨rfl, rfl⟩ := Prod.mk.inj (Except.ok.inj ran)
      refine ⟨ts, c', rfl, rfl, ?_⟩
      cases language with
      | rho => exact Rho.lists_of_statementsWith (item_uses uniform) whole (Nat.le_refl _) looped
      | pi => exact Pi.lists_of_script (item_uses uniform) whole rfl (Nat.le_refl _) looped

theorem parse_of_lists (uniform : ctx.registry.IsUniform) (lexed : tokenize source = .ok tokens)
    {ts : List Tree} {c' : Cursor}
    (lists : Lists language.layout (language.item ctx tokens.length)
      (language.start tokens serial) ts c')
    (small : ts.length < (language.start tokens serial).rest.length) :
    parse language ctx source serial = .ok (.sequence ts, c'.serial) := by
  have looped : language.loop ctx tokens.length (language.start tokens serial).rest.length
      (language.start tokens serial) = .ok (ts, c') := by
    cases language with
    | rho => exact Rho.statementsWith_of_lists lists small
    | pi =>
        exact Pi.script_of_lists (item_uses uniform) lists (start_whole lexed serial) rfl small
  rw [parse_eq language ctx serial lexed, looped]
  rfl

/-- Between the tokens of one text and those of the next one, what stands there may be passed
over. -/
theorem start_behind {d : Cursor} {before : List Token}
    (stands : d.tokens = (.newline :: before).filter language.counts) :
    ∃ d' : Cursor, d'.tokens = before.filter language.counts ∧ d'.brackets = d.brackets ∧
      d'.names = d.names ∧ d'.serial = d.serial ∧
      d'.drop language.layout.separates = d.drop language.layout.separates := by
  cases language with
  | rho =>
      refine ⟨{ d with rest := d.rest.tail }, ?_, rfl, rfl, rfl, ?_⟩
      · change d.rest.tail.map Placed.token = _
        rw [List.map_tail, show d.rest.map Placed.token = _ from stands]
        rfl
      · rcases shape : d.rest with _ | ⟨t, rest⟩
        · simp [Cursor.drop, shape]
        · have first : t.token = .newline := by
            rw [Cursor.tokens, shape] at stands
            exact (List.cons.inj stands).1
          rw [Cursor.drop, Cursor.drop, shape, List.tail_cons, List.dropWhile_cons_of_pos]
          rw [first]
          rfl
  | pi => exact ⟨d, stands, rfl, rfl, rfl, rfl⟩

end Language

variable {language : Language} {ctx ctx₂ : Context} {first second : String} {s₀ s₁ s₂ s₃ : Nat}
  {ts us : List Tree} {ρ : Nat → Nat}

/-- What is read behind a line end can stand there. -/
theorem Language.isSeam_ahead {s : Seam} {size : Nat} {c c' : Cursor} {after : List Token}
    (lists : Lists language.layout (language.item ctx size) c ts c') (outside : c.brackets = 0)
    (stands : c.tokens = after.filter language.counts)
    (edge : s.edge = (.newline :: after).filter language.counts)
    (sharp : s.isSharp = decide (language = .rho)) : language.IsSeam s := by
  cases language with
  | rho =>
    exact ⟨fun _ => by rw [Seam.head, edge]; rfl, fun blunt => by cases sharp.symm.trans blunt⟩
  | pi =>
      have next : s.head = c.next.token := by
        rw [Seam.head, edge, c.next_token, stands]
        rfl
      refine ⟨sharp, ?_⟩
      rw [next]
      cases lists with
      | done closes =>
          rw [show Language.pi.layout = Pi.layout from rfl, Pi.drop_separates] at closes
          left
          cases known : c.next.token with
          | finish => rfl
          | _ => rw [known] at closes; cases closes
      | item opens read follows rest =>
          rw [show Language.pi.layout = Pi.layout from rfl, Pi.drop_separates] at read
          have stays : c.settled = c := if_neg (by simp [outside])
          exact .inr (stays ▸ Pi.beginsTerm_of_term read)

theorem tokenize_of_parse {source : String} {serial : Nat} {r : Tree × Nat}
    (ran : parse language ctx source serial = .ok r) : ∃ tokens, tokenize source = .ok tokens := by
  rw [parse] at ran
  cases lexed : tokenize source with
  | error fault =>
      rw [lexed] at ran
      cases ran
  | ok tokens => exact ⟨tokens, rfl⟩

theorem headD_counts (after : List Token) :
    (after.filter Language.pi.counts).headD .finish ≠ .newline := by
  rcases known : after.filter Language.pi.counts with _ | ⟨t, more⟩
  · exact nofun
  · have counted : t ∈ after.filter Language.pi.counts := known ▸ List.mem_cons_self
    intro same
    rw [List.headD_cons] at same
    rw [same] at counted
    exact nomatch (List.mem_filter.mp counted).2

namespace Language

/-- The end of a text stays when the tokens that do not count are left out. -/
theorem filter_finish (language : Language) (before : List Token) :
    (before ++ [Token.finish]).filter language.counts = before.filter language.counts ++
    [.finish] := by
  rw [List.filter_append]
  cases language <;> rfl

/-- What the first text lists, the whole lists in front of the second one. -/
theorem lists_first (uniform : ctx.registry.IsUniform) {tokens both : List Placed}
    {before after : List Token} {size size₂ : Nat} {c' c₂ c₂' : Cursor}
    (shown : tokens.map Placed.token = before ++ [.finish]) (unfinished : .finish ∉ before)
    (shown' : both.map Placed.token = before ++ .newline :: after) (le : tokens.length ≤ size)
    (lists : Lists language.layout (language.item ctx tokens.length)
      (language.start tokens s₀) ts c')
    (lists₂ : Lists language.layout (language.item ctx₂ size₂) c₂ us c₂')
    (outside : c₂.brackets = 0) (stands : c₂.tokens = after.filter language.counts)
    (there : c₂.rest ≠ []) :
    ∃ names d, d.tokens = (.newline :: after).filter language.counts ∧ d.brackets = 0 ∧
      d.names = [names] ∧ d.serial = c'.serial ∧ (∀ name, name ∈ names ↔ name ∈ Tree.bindsAll ts) ∧
      ts.length ≤ (before.filter language.counts).length ∧
      ∀ {vs e}, Lists language.layout (language.item ctx size) d vs e →
        Lists language.layout (language.item ctx size) (language.start both s₀) (ts ++ vs) e := by
  have some : after.filter language.counts ≠ [] := by
    rw [← stands, Cursor.tokens]
    exact fun empty => there (List.map_eq_nil_iff.mp empty)
  let s : Seam := .ahead ctx uniform c'.serial ((.newline :: after).filter language.counts)
    (decide (language = .rho))
    (by cases language with
      | rho => exact List.cons_ne_nil _ _
      | pi => exact some)
    fun blunt => by
      cases language with
      | rho => cases blunt
      | pi => exact headD_counts after
  have seam : language.IsSeam s := isSeam_ahead lists₂ outside stands rfl rfl
  have counted : (language.start tokens s₀).tokens = before.filter language.counts ++
      [.finish] := by
    rw [tokens_start, shown, filter_finish]
  have meets : s.Meets (language.start tokens s₀) (language.start both s₀) := by
    refine ⟨⟨_, counted, fun mem => unfinished (List.mem_of_mem_filter mem), ?_⟩,
      rfl, ⟨[], [], rfl, rfl⟩, rfl, Nat.zero_le _⟩
    rw [tokens_start, shown', List.filter_append]
    rfl
  have follows : language.layout.follows s.head = true := by cases language <;> rfl
  obtain ⟨new, _, d, leads⟩ := lists.leads (item_carries seam le) meets (Nat.le_refl _)
    (.inr ⟨by simp [Cursor.IsInside, start], follows⟩)
  have names : c'.names = [new.names] := by
    rw [leads.moved.names]
    exact congrArg (fun names => [names]) (List.append_nil _)
  refine ⟨new.names, d, leads.meets.edge (over_of_lists lists leads.meets.whole), ?_, ?_,
    leads.meets.serial.symm, leads.copies.names, ?_, fun {vs e} further => ?_⟩
  · rw [leads.meets.brackets, leads.moved.brackets]
    rfl
  · obtain ⟨outer, last, same, same'⟩ := leads.meets.names
    rw [names, List.singleton_eq_append_iff] at same
    obtain ⟨rfl, same⟩ | ⟨-, none⟩ := same
    · cases same
      rw [same', List.nil_append]
      exact congrArg (fun names => [names]) (List.append_nil _)
    · cases none
  · have counts := leads.counted
    have used := leads.moved.used
    have left := List.length_pos_iff.mpr leads.moved.there
    have length := congrArg List.length counted
    rw [Cursor.tokens_length, List.length_append, List.length_singleton] at length
    omega
  · have same : ts.map (Tree.renumber s.numbers) = ts :=
      (List.map_congr_left fun t _ => Tree.renumber_id t).trans (List.map_id ts)
    have all := leads.goes_on further
    rwa [leads.copies.trees, same] at all

/-- What the second text lists, the whole lists behind the first one. -/
theorem lists_second (uniform : ctx.registry.IsUniform) (registry : ctx₂.registry = ctx.registry)
    (inj : ρ.Injective) {names : List String}
    (bound : ∀ name, ctx₂.isBound name = (decide (name ∈ names) || ctx.isBound name))
    {tokens : List Placed} {size : Nat} {c' d : Cursor} (whole : (language.start tokens s₂).IsWhole)
    (le : tokens.length ≤ size) (window : ∀ n, s₂ ≤ n → n < c'.serial → ρ n + (s₂ - d.serial) = n)
    (ordered : d.serial ≤ s₂)
    (lists : Lists language.layout (language.item ctx₂ tokens.length)
      (language.start tokens s₂) us c')
    (stands : d.tokens = (tokens.map Placed.token).filter language.counts)
    (outside : d.brackets = 0) (known : d.names = [names]) :
    us.length < d.rest.length ∧ ∃ e, e.serial = d.serial + (c'.serial - s₂) ∧
      Lists language.layout (language.item ctx size) d (us.map (Tree.renumber ρ)) e := by
  let s : Seam :=
    { edge := [.finish], isSharp := false, base := names, alone := ctx₂, joint := ctx, numbers := ρ
      start := s₂, limit := c'.serial, shift := s₂ - d.serial
      edge_ne := List.cons_ne_nil _ _, not_newline := fun _ => nofun
      bound := fun name => by rw [bound, List.contains_eq_mem]
      registry := registry.symm, uniform := registry ▸ uniform, injective := inj, window := window }
  have seam : language.IsSeam s := isSeam_finish rfl rfl
  obtain ⟨before, shown, unfinished⟩ := whole.tokens
  have meets : s.Meets (language.start tokens s₂) d := by
    refine ⟨⟨before, shown, unfinished, ?_⟩, outside, ⟨[], [], rfl, known⟩, ?_, Nat.le_refl _⟩
    · rw [stands, ← tokens_start language tokens s₂, shown]
    · exact (Nat.add_sub_cancel' ordered).symm
  obtain ⟨new, _, d', leads⟩ := lists.leads (item_carries seam le) meets (Nat.le_refl _)
    (.inr ⟨by simp [Cursor.IsInside, start], by cases language <;> rfl⟩)
  have ends : d'.tokens = [.finish] := leads.meets.edge (over_of_lists lists leads.meets.whole)
  refine ⟨?_, d'.drop language.layout.separates, ?_, ?_⟩
  · have counts := leads.counted
    have used := leads.moved.used
    have left := List.length_pos_iff.mpr leads.moved.there
    have le := meets.length_le
    omega
  · have serial := leads.meets.serial
    have grows := leads.moved.serial
    change d'.serial = _
    change c'.serial = d'.serial + (s₂ - d.serial) at serial
    change s₂ ≤ c'.serial at grows
    omega
  · have closes : language.layout.closes (d'.drop language.layout.separates).next.token = true := by
      rw [Cursor.next_token, Cursor.tokens_drop, ends]
      cases language <;> rfl
    have all := leads.goes_on (.done closes)
    rwa [leads.copies.trees, List.append_nil] at all

end Language

/-- The tree of a text is a list of statements. -/
theorem sequence_of_parse (uniform : ctx.registry.IsUniform) {source : String} {serial n : Nat}
    {t : Tree} (ran : parse language ctx source serial = .ok (t, n)) : ∃ ts, t = .sequence ts := by
  obtain ⟨tokens, lexed⟩ := tokenize_of_parse ran
  obtain ⟨ts, -, same, -⟩ := language.lists_of_parse uniform lexed ran
  exact ⟨ts, same⟩

/-- Two texts with a line end between them. -/
theorem parse_lines (uniform : ctx.registry.IsUniform) (registry : ctx₂.registry = ctx.registry)
    (bound : ∀ name, ctx₂.isBound name = (decide (name ∈ Tree.bindsAll ts) || ctx.isBound name))
    (inj : ρ.Injective) (window : ∀ n, s₂ ≤ n → n < s₃ → ρ n + (s₂ - s₁) = n) (le : s₁ ≤ s₂)
    (one : parse language ctx first s₀ = .ok (.sequence ts, s₁))
    (two : parse language ctx₂ second s₂ = .ok (.sequence us, s₃)) :
    parse language ctx (first ++ "\n" ++ second) s₀ =
      .ok (.sequence (ts ++ us.map (Tree.renumber ρ)), s₁ + (s₃ - s₂)) := by
  obtain ⟨tokens, lexed⟩ := tokenize_of_parse one
  obtain ⟨tokens₂, lexed₂⟩ := tokenize_of_parse two
  obtain ⟨before, both, shown, unfinished, lexed', shown'⟩ := tokenize_lines lexed lexed₂
  obtain ⟨_, c', same, rfl, lists⟩ := language.lists_of_parse uniform lexed one
  cases same
  obtain ⟨_, c₂', same, rfl, lists₂⟩ := language.lists_of_parse (registry ▸ uniform) lexed₂ two
  cases same
  have size : tokens.length ≤ both.length ∧ tokens₂.length ≤ both.length := by
    have := congrArg List.length shown
    have := congrArg List.length shown'
    simp only [List.length_map, List.length_append, List.length_cons, List.length_nil] at *
    omega
  have whole₂ := language.start_whole lexed₂ s₂
  obtain ⟨names, d, stands, brackets, known, serial, binds, few, goes_on⟩ :=
    language.lists_first uniform shown unfinished shown' size.1 lists lists₂ rfl
      (language.tokens_start tokens₂ s₂) whole₂.there
  obtain ⟨d₂, stands₂, brackets₂, names₂, serial₂, passed⟩ := Language.start_behind stands
  rw [← serial, ← serial₂] at window le
  obtain ⟨few₂, e, serial₃, lists₃⟩ := language.lists_second uniform registry inj
    (fun name => by rw [bound, decide_eq_decide.mpr (binds name).symm]) whole₂ size.2
    window le lists₂
    stands₂ (brackets₂.trans brackets) (names₂.trans known)
  rw [← serial, ← serial₂, ← serial₃]
  refine language.parse_of_lists uniform lexed' (goes_on (lists₃.of_drop passed.symm)) ?_
  have all := congrArg List.length (language.tokens_start both s₀)
  have behind := congrArg List.length stands₂
  rw [shown', List.filter_append, List.length_append, Cursor.tokens_length] at all
  rw [Cursor.tokens_length] at behind
  have passing :=
    (List.sublist_cons_self Token.newline (tokens₂.map Placed.token)).filter language.counts
  have le := passing.length_le
  rw [List.length_append, List.length_map]
  omega

end PeerScript.Script
