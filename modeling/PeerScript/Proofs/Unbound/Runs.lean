import PeerScript.Proofs.Reception
import PeerScript.Proofs.Stops
import PeerScript.Proofs.Twins.Runs
import PeerScript.Proofs.Unbound

/-!
# What runs find

A run keeps a session honouring its outlook and finds all names but late ones: `honours_tree`.  The
proof goes through the tree, and through the invocations by the number of levels that may still
nest.  The body of a function finds its parameters in its own frame, and the names behind them from
the home of the function, which is still captured when it is called.
-/

set_option autoImplicit false

namespace PeerScript

variable {σ α β : Type}

open Run

/-! ## Objects -/

/-- A method that pushes data only, does not go back into the machine, and leaves the frames of the
session alone. -/
def Method.Honours (o : Outlook σ) : Method σ → Machine σ → Prop
  | .finish (.ok (some v)), _ => v.IsData
  | .finish (.ok none), _ | .stuck, _ => True
  | .finish (.error fault), _ => ∀ name, fault ≠ .unbound name
  | .push v next, m => v.IsData ∧ next.Honours o (m.push v)
  | .call .., _ | .run .., _ | .runIn .., _ => False
  | .look next, m => (next m.session m.whole).Honours o m
  | .change act next, m =>
      m.common.store.Spares (fun f => ¬ m.Keeps f) (act m.whole).store ∧ o.shared (act m.whole) ∧
        next.Honours o (m.changed (act m.whole))

/-- Members of the objects of a session are data, and their methods leave it to itself. -/
structure Host.Honours (o : Outlook σ) (host : Host σ) : Prop where
  member : ∀ world object name v, o.own object → host.member world object name = some v → v.IsData
  method : ∀ object name args (m : Machine σ), o.own object → m.Honours o →
    (host.method object name args).Honours o m

section Parts

variable {o : Outlook σ} {m : Machine σ} {host : Host σ} {scope : FrameId}

theorem honours_method (level : Inside σ) (act : Method σ) {m : Machine σ} (honours : m.Honours o)
    (keeps : act.Honours o m) :
    Run.Honours o (fun _ v => ∀ w ∈ v, w.IsData) (runMethod level act) m := by
  induction act generalizing m with
  | finish result =>
      rcases result with fault | _ | v
      · exact .stops honours fun name same => absurd (Stop.failed.inj same) (keeps name)
      · exact .pure honours nofun
      · refine .pure honours fun w mem => ?_
        obtain rfl := Option.mem_some.mp mem
        exact keeps
  | push v next ih =>
      have pushed : (m.push v).Honours o := honours.push (keeps.1.fits _ _)
      have onward : m.Onward (m.push v) := .of_store rfl rfl rfl
      exact .resume onward (bind_of_ok (push_eq v)) (ih pushed keeps.2)
  | call | run | runIn => exact keeps.elim
  | look next ih => exact ih _ _ honours keeps
  | change act next ih =>
      obtain ⟨changed, onward⟩ := honours.changed keeps.1 keeps.2.1
      exact .resume onward rfl (ih changed keeps.2.2)
  | stuck => exact .stops honours nofun

/-- A name that is in view or late. -/
def Machine.Expects (o : Outlook σ) (m : Machine σ) (scope : FrameId) (name : String) : Prop :=
  o.late name ∨ m.Sees scope name

theorem Machine.Onward.expects {m' : Machine σ} (h : m.Onward m') (enters : m.Enters scope)
    {name : String} (expects : m.Expects o scope name) : m'.Expects o scope name :=
  expects.imp_right (h.sees enters)

variable (honours : m.Honours o) (enters : m.Enters scope)

include honours enters

theorem honours_lookup {name : String} (expects : m.Expects o scope name) :
    Run.Honours o (fun m' v => m' = m ∧ m.Fits o.Good v) (lookup name scope) m := by
  refine .bind (.get honours) ?_
  rintro _ _ - - ⟨rfl, rfl⟩
  split
  · rename_i v found
    exact .pure honours ⟨rfl, honours.tends.get? enters.keeps id found⟩
  · rename_i here
    split
    · rename_i v found
      exact .pure honours ⟨rfl, honours.tends.get? (Machine.enters_ambient _).keeps id found⟩
    · rename_i there
      refine .stops honours fun other same => ?_
      obtain rfl : name = other := Fault.unbound.inj (Stop.failed.inj same)
      rcases expects with late | known | known
      · exact late
      · rw [Store.contains_eq, here] at known
        exact nomatch known
      · rw [Store.contains_eq, there] at known
        exact nomatch known

omit enters in
theorem honours_membersOf (keeps : host.Honours o) {v : Value} (fits : m.Fits o.Good v)
    (names : List String) :
    Run.Honours o (fun m' v => m' = m ∧ m.Fits o.Good v) (membersOf host v names) m := by
  induction names generalizing v with
  | nil => exact .pure honours ⟨rfl, fits⟩
  | cons name rest ih =>
      have one : Run.Honours o (fun m' w => m' = m ∧ m.Fits o.Good w) (member host v name) m := by
        refine .bind (.get honours) ?_
        rintro _ _ - - ⟨rfl, rfl⟩
        dsimp only
        split
        · rename_i w found
          refine .pure honours ⟨rfl, ?_⟩
          split at found
          · have own := fits.good.within
            rw [Value.Within] at own
            exact (keeps.member _ _ name w own found).fits _ _
          · exact nomatch found
        · exact .stops honours nofun
      refine one.bind ?_
      rintro w _ - - ⟨rfl, fits⟩
      exact ih fits

theorem honours_resolve (keeps : host.Honours o) {path : Path}
    (expects : m.Expects o scope path.root) :
    Run.Honours o (fun m' v => m' = m ∧ m.Fits o.Good v) (resolve host path scope) m := by
  refine (honours_lookup honours enters expects).bind ?_
  rintro v _ - - ⟨rfl, fits⟩
  split
  · exact .stops honours nofun
  · exact honours_membersOf honours keeps fits _

end Parts

/-! ## Builtins -/

/-- A builtin moves values on the stack, and looks up no name. -/
theorem honours_builtin (host : Host σ) (b : Builtin) (args : List Value) {o : Outlook σ}
    {m : Machine σ} (honours : m.Honours o) :
    Run.Honours o (fun m' v => ∀ w ∈ v, m'.Fits o.Good w) (b.run host args) m := by
  have noArgs : ∀ b : Builtin, Run.Honours o (fun m' _ => m' = m)
      (b.noArgs args : Run σ Unit) m := by
    intro b
    unfold Builtin.noArgs
    split
    · exact .pure honours rfl
    · exact .stops honours (by rintro _ ⟨⟩)
  have single : ∀ b : Builtin, Run.Honours o (fun m' _ => m' = m)
      (b.single args : Run σ Value) m := by
    intro b
    unfold Builtin.single
    split
    · exact .pure honours rfl
    · exact .stops honours (by rintro _ ⟨⟩)
  have nothing : ∀ {m : Machine σ}, m.Honours o → Run.Honours o
      (fun m' v => ∀ w ∈ v, m'.Fits o.Good w) (pure none) m :=
        fun honours => .pure honours (by simp)
  have gives : ∀ {m : Machine σ} {v : Value}, m.Honours o → m.Fits o.Good v → Run.Honours o
      (fun m' v => ∀ w ∈ v, m'.Fits o.Good w) (pure (some v)) m := by
    intro m v honours fits
    refine .pure honours fun w mem => ?_
    obtain rfl := Option.mem_some.mp mem
    exact fits
  have count : ∀ n, m.Fits o.Good (Builtin.count n) := fun n => (Value.IsData.int _).fits _ _
  have text : ∀ s, m.Fits o.Good (.str s) := fun s => (Value.IsData.str s).fits _ _
  cases b with
  | assert =>
      unfold Builtin.run
      dsimp only
      split
      · exact .stops honours (by rintro _ ⟨⟩)
      · split
        · exact nothing honours
        · exact .stops honours (by rintro _ ⟨⟩)
  | print =>
      have printed : ∀ lines,
          ({ m with common := { m.common with printed := lines } } : Machine σ).Honours o :=
        fun lines => honours.narrowed rfl rfl rfl (List.Subset.refl _) rfl (Nat.le_refl _) rfl
      exact .ok rfl (.of_store rfl rfl rfl) (printed _) (by simp)
  | depth =>
      refine (noArgs .depth).bind ?_
      rintro _ _ - - rfl
      exact .ok rfl (.refl _) honours fun w mem => Option.mem_some.mp mem ▸ count _
  | drop =>
      refine (noArgs .drop).bind ?_
      rintro _ _ - - rfl
      exact (Run.Honours.pop honours).bind fun _ _ _ honours' _ => nothing honours'
  | dup =>
      refine (noArgs .dup).bind ?_
      rintro _ _ - - rfl
      refine (Run.Honours.get honours).bind ?_
      rintro _ _ - - ⟨rfl, rfl⟩
      split
      · exact .stops honours (by rintro _ ⟨⟩)
      · rename_i v rest stack
        exact gives honours (honours.tends.stack v (stack ▸ List.mem_cons_self))
  | swap =>
      refine (noArgs .swap).bind ?_
      rintro _ _ - - rfl
      refine (Run.Honours.get honours).bind ?_
      rintro _ _ - - ⟨rfl, rfl⟩
      split
      · rename_i top below rest stack
        have fits := honours.tends.stack
        rw [stack, List.forall_mem_cons, List.forall_mem_cons] at fits
        refine (Run.Honours.withStack honours (List.forall_mem_cons.mpr ⟨fits.1, fits.2.2⟩)).bind ?_
        rintro _ _ - honours' rfl
        exact gives honours' ⟨fits.2.1.housed, fits.2.1.good⟩
      · exact .stops honours (by rintro _ ⟨⟩)
  | clear =>
      refine (noArgs .clear).bind fun _ n _ honours' _ => ?_
      have none : ∀ v ∈ [], n.Fits o.Good v := List.forall_mem_nil _
      exact (Run.Honours.withStack honours' none).bind fun _ _ _ honours₂ _ => nothing honours₂
  | len =>
      refine (single .len).bind ?_
      rintro v _ - - rfl
      split
      · exact gives honours (count _)
      · exact gives honours (count _)
      · exact .stops honours (by rintro _ ⟨⟩)
  | str =>
      refine (single .str).bind ?_
      rintro v _ - - rfl
      exact gives honours (text _)
  | type =>
      refine (single .type).bind ?_
      rintro v _ - - rfl
      exact gives honours (text _)


/-! ## Calls -/

/-- The names that a tree looks up are in view or late. -/
structure Machine.Covers (o : Outlook σ) (m : Machine σ) (scope : FrameId) (t : Tree) : Prop where
  source : t.IsSource
  free : ∀ name ∈ t.free, m.Expects o scope name

/-- The names that trees look up are in view or late. -/
structure Machine.CoversAll (o : Outlook σ) (m : Machine σ) (scope : FrameId) (ts : List Tree) :
    Prop where
  source : Tree.AreSource ts
  free : ∀ name ∈ Tree.freeAll ts, m.Expects o scope name

/-- A run of a tree leaves the session to itself and finds all names but late ones. -/
def Finds (o : Outlook σ) (host : Host σ) (levels : Nat) : Prop :=
  ∀ (t : Tree) (scope : FrameId) (m : Machine σ), m.Covers o scope t →
    m.Enters scope → m.Honours o →
    Run.Honours o (fun _ _ => True) (evalTree host (inside host levels) t scope) m

section Levels

variable {o : Outlook σ} {host : Host σ} {levels : Nat} {m : Machine σ} {scope : FrameId}

theorem honours_invocation {right : α → Prop} {act : Inside σ → Run σ α} (honours : m.Honours o)
    (h : ∀ fewer, levels = fewer + 1 →
      Run.Honours o (fun _ => right) (act (level host fewer)) m.enter) :
    Run.Honours o (fun _ => right) (invocation (inside host levels) act) m := by
  refine .bind (.get honours) ?_
  rintro _ _ - - ⟨rfl, rfl⟩
  split
  · exact .stops honours nofun
  · cases levels with
    | zero => exact .stops honours nofun
    | succ fewer => exact .counted (h fewer rfl)

section

variable (below : ∀ fewer, levels = fewer + 1 → Finds o host fewer)

include below

/-- A body finds the names that its frame binds, and those that are in view from the frame around
it. -/
theorem honours_body {parent : FrameId} {bindings : List (String × Value)} {body : Tree}
    (honours : m.Honours o) (kept : m.Keeps parent)
    (above : o.ambient ∈ m.common.store.chain parent) (fits : ∀ b ∈ bindings, m.Fits o.Good b.2)
    (source : body.IsSource)
    (free : ∀ name ∈ body.free, name ∈ bindings.map (·.1) ∨ m.Expects o parent name) :
    Run.Honours o (fun _ _ => True)
      (newFrame parent bindings >>= fun frame =>
        invocation (inside host levels) fun level => holding frame (level.run body frame)) m := by
  have alloc := m.common.store.widens_alloc (some parent)
  have widens : m.common.store.Widens (m.framed parent bindings).common.store :=
    alloc.trans (Store.widens_setAll _ _ _)
  have onward : m.Onward (m.framed parent bindings) := .of_widens rfl rfl widens
  have framed := honours.framed parent fits
  refine .resume onward (bind_of_ok rfl) (honours_invocation framed fun fewer enough => ?_)
  refine .holding (below fewer enough body _ _ ⟨source, fun name mem => ?_⟩
    (List.mem_cons_of_mem _ List.mem_cons_self) (honours.called kept above fits))
  have lt := honours.tends.lt_of_keeps kept
  have chain : (m.framed parent bindings).common.store.chain m.common.store.frames.size =
      m.common.store.frames.size :: m.common.store.chain parent := by
    rw [Store.chain_of_some (m.parent?_framed parent bindings) lt,
      (m.extends_framed parent bindings).chain_eq lt]
  rcases free name mem with param | late | known | known
  · have new : m.common.store.frames.size < (m.common.store.alloc (some parent)).1.frames.size := by
      rw [Store.size_alloc]
      exact Nat.lt_succ_self _
    refine .inr (.inl (Store.contains_iff_local?.mpr ⟨_, Store.mem_chain_self _ _, ?_⟩))
    exact Store.names_setAll new param
  · exact .inl late
  · refine .inr (.inl (Store.contains_of_chain ?_ (widens.contains lt known)))
    change parent ∈ (m.framed parent bindings).common.store.chain m.common.store.frames.size
    rw [chain]
    exact List.mem_cons_of_mem _ (Store.mem_chain_self _ _)
  · exact .inr (.inr (widens.contains (Store.lt_of_contains known) known))

theorem honours_call {callee : Value} (callable : m.Fits o.Good callee) (name : String)
    {args : List Value} (fits : ∀ v ∈ args, m.Fits o.Good v) (enters : m.Enters scope)
    (honours : m.Honours o) :
    Run.Honours o (fun _ _ => True)
      (callValue host (inside host levels) callee name args scope) m := by
  cases callee with
  | closure params body home =>
      have step :=
        callValue_closure host (inside host levels) params body home name args scope (m := m)
      rw [callable.housed.around_eq] at step
      split at step
      · rename_i enough
        have kept := callable.housed.keeps_around enters
        have above : o.ambient ∈ m.common.store.chain (home.getD scope) := by
          cases home with
          | none => exact honours.above enters
          | some f =>
            exact honours.rooted f (List.mem_append_left _ (callable.housed params body f rfl))
        have named : (params.zip args).map (·.1) = params := by
          rcases enough with none | same
          · rw [List.isEmpty_iff.mp none, List.zip_nil_left, List.map_nil]
          · exact List.map_fst_zip (Nat.le_of_eq same)
        have free : ∀ name ∈ body.free, name ∈ (params.zip args).map (·.1) ∨
            m.Expects o (home.getD scope) name := by
          intro name mem
          rw [named]
          by_cases param : name ∈ params
          · exact .inl param
          · have outer : name ∈ (Value.closure params body home).free := by
              rw [Value.free]
              exact List.mem_filter.mpr ⟨mem, decide_eq_true param⟩
            rcases callable.good.free name outer with late | known | ⟨f, same, known⟩
            · exact .inr (.inl late)
            · exact .inr (.inr (.inr (honours.ambient ▸ known)))
            · obtain rfl : home = some f := same
              exact .inr (.inr (.inl known))
        have source := callable.good.source params body home rfl
        have among : ∀ b ∈ params.zip args, b.2 ∈ args := fun b mem => (List.of_mem_zip mem).2
        split at step
        · -- the arguments are put back
          have onward : m.Onward (m.pushAll args) := .of_store rfl rfl rfl
          refine .resume onward step ?_
          refine honours_body below (honours.pushAll fits) kept above (fun b mem => ?_) source free
          exact ⟨(fits _ (among b mem)).housed, (fits _ (among b mem)).good⟩
        · exact .resume (.refl m) step
            (honours_body below honours kept above (fun b mem => fits _ (among b mem)) source free)
      · exact .error step (.refl m) honours (by rintro _ ⟨⟩)
  | native b =>
      refine .bind (honours_builtin host b args honours) fun v m' _ honours' fits => ?_
      cases v with
      | none => exact .pure honours' trivial
      | some v => exact .push honours' (fits v rfl)
  | _ => exact .stops honours (by rintro _ ⟨⟩)

variable (keeps : host.Honours o)

include keeps

theorem honours_path {path : Path} (named : path.segments ≠ [])
    (expects : m.Expects o scope path.root) {args : List Value} (fits : ∀ v ∈ args, m.Fits o.Good v)
    (enters : m.Enters scope) (honours : m.Honours o) :
    Run.Honours o (fun _ _ => True) (callPath host (inside host levels) path args scope) m := by
  obtain ⟨segments⟩ := path
  rcases segments.eq_nil_or_concat with rfl | ⟨receiver, last, rfl⟩
  · exact absurd rfl named
  rw [callPath]
  simp only [List.concat_eq_append, List.getLast?_append, List.getLast?_singleton, Option.some_or,
    List.dropLast_concat]
  cases receiver with
  | nil =>
      refine (honours_lookup honours enters expects).bind ?_
      rintro callee _ - - ⟨rfl, callable⟩
      exact honours_call below callable _ fits enters honours
  | cons first others =>
      have root : m.Expects o scope (Path.mk (first :: others)).root := expects
      refine (honours_resolve honours enters keeps root).bind ?_
      rintro v _ - - ⟨rfl, callable⟩
      cases v with
      | object object =>
          have own := callable.good.within
          rw [Value.Within] at own
          have still : ∀ {m : Machine σ}, m.Honours o → m.enter.Honours o := fun honours =>
            honours.narrowed rfl rfl rfl (List.Subset.refl _) rfl (Nat.le_refl _) rfl
          have called : Run.Honours o (fun _ v => ∀ w ∈ v, w.IsData)
              (invocation (inside host levels) fun level =>
                runMethod level (host.method object last args)) _ :=
            honours_invocation honours fun fewer _ => honours_method (level host fewer) _
              (still honours) (keeps.method object last args _ own (still honours))
          refine called.bind fun v m₂ _ honours₂ data => ?_
          cases v with
          | none => exact .pure honours₂ trivial
          | some v => exact .push honours₂ ((data v rfl).fits _ _)
      | _ => exact .stops honours (by rintro _ ⟨⟩)

theorem honours_dispatch {head : Head} (source : head.IsSource)
    (expects : ∀ name ∈ head.calls, m.Expects o scope name) {values : List Value}
    (fits : ∀ v ∈ values, m.Fits o.Good v) (enters : m.Enters scope) (honours : m.Honours o) :
    Run.Honours o (fun _ _ => True) (dispatch host (inside host levels) head values scope) m := by
  cases head with
  | sequence => exact .ok rfl (.of_store rfl rfl rfl) (honours.pushAll fits) trivial
  | bind name =>
      rw [dispatch]
      cases last : values.getLast? with
      | none => exact .stops honours (by rintro _ ⟨⟩)
      | some v =>
          have kept : ∀ v ∈ values.dropLast, m.Fits o.Good v := fun v mem =>
            fits v (List.dropLast_subset _ mem)
          have fit := fits v (List.mem_of_getLast? last)
          have pushed := honours.pushAll kept
          have there : (m.pushAll values.dropLast).Enters scope := enters
          have bound := pushed.bind there name ⟨fit.housed, fit.good⟩
          exact .ok rfl (.of_widens rfl rfl (Store.widens_set _ _ _ _)) bound trivial
  | op operator =>
      refine .bind (.ofExcept honours (fun v computed => ?_) fun fault _ => ?_)
        fun v m' _ honours' (data : v.IsData) => .push honours' (data.fits _ _)
      · exact Operator.data_apply computed
      · rename_i failed
        rintro name ⟨⟩
        cases Operator.refuses_apply failed
  | list => exact .push honours ((Value.IsData.list _).fits _ _)
  | construct typeName =>
      have step : dispatch host (inside host levels) (.construct typeName) values scope m =
          (Run.ofExcept (m.session.registry.decode typeName values m.common.serial) >>= fun v => do
            set (m.numbered (m.common.serial + 1))
            Run.push v : Run σ Unit) m := rfl
      cases decoded : m.session.registry.decode typeName values m.common.serial with
      | error fault =>
          rw [decoded] at step
          refine .error step (.refl m) honours ?_
          rintro name ⟨⟩
          rcases Registry.fault_of_decode decoded with same | ⟨reason, same⟩ <;> cases same
      | ok v =>
          rw [decoded] at step
          obtain ⟨kind, fields, rfl⟩ := Registry.handle_of_decode decoded
          have numbered : (m.numbered (m.common.serial + 1)).Honours o :=
            honours.narrowed rfl rfl rfl (List.Subset.refl _) rfl (Nat.le_succ _) rfl
          have fits : (m.numbered (m.common.serial + 1)).Fits o.Good
              (.handle kind m.common.serial fields) :=
            ⟨Machine.houses_plain fun _ _ _ => Value.noConfusion,
              Footing.good_of_flat (fun _ _ _ => Value.noConfusion) (by simp only [Value.Within])⟩
          exact .ok step (.of_store rfl rfl rfl) (numbered.push fits) trivial
  | invoke path =>
      exact honours_path below keeps source (expects path.root (List.mem_singleton_self _))
        fits enters honours

end

theorem Machine.Covers.body {params : List String} {body : Tree} {home : Option FrameId}
    (covers : m.Covers o scope (.literal (.closure params body home))) (honours : m.Honours o) :
    o.Good m.common.store (.closure params body (some scope)) where
  within := by
    have source := covers.source
    rw [Tree.IsSource, Value.IsSource] at source
    rw [Value.Within]
    exact source.within fun _ _ => ⟨trivial, trivial⟩
  source := by
    rintro _ _ _ ⟨⟩
    have source := covers.source
    rwa [Tree.IsSource, Value.IsSource] at source
  free name mem := by
    rcases covers.free name mem with late | known | known
    · exact .inl late
    · exact .inr (.inr ⟨scope, rfl, known⟩)
    · exact .inr (.inl (honours.ambient ▸ known))

theorem Machine.Covers.parts {head : Head} {args : List Tree}
    (covers : m.Covers o scope (.call head args)) :
    head.IsSource ∧ (∀ name ∈ head.calls, m.Expects o scope name) ∧ m.CoversAll o scope args := by
  obtain ⟨source, free⟩ := covers
  rw [Tree.IsSource] at source
  rw [Tree.free] at free
  exact ⟨source.1, fun name mem => free name (List.mem_append_left _ mem),
    source.2, fun name mem => free name (List.mem_append_right _ mem)⟩

mutual

theorem honours_tree (below : ∀ fewer, levels = fewer + 1 → Finds o host fewer)
    (keeps : host.Honours o) :
    ∀ (t : Tree) (scope : FrameId) {m : Machine σ}, m.Covers o scope t →
    m.Enters scope → m.Honours o →
      Run.Honours o (fun _ _ => True) (evalTree host (inside host levels) t scope) m
  | .literal v, scope, m, covers, enters, honours => by
      by_cases made : ∃ params body home, v = .closure params body home
      · obtain ⟨params, body, home, rfl⟩ := made
        obtain ⟨captures, captured, onward⟩ := honours.capture enters
        have fits : (m.capture scope).Fits o.Good (.closure params body (some scope)) := by
          refine ⟨?_, m.common_capture scope ▸ covers.body honours⟩
          rintro _ _ _ ⟨⟩
          exact captured
        rw [evalTree]
        have pushed : (m.capture scope).Onward
            ((m.capture scope).push (.closure params body (some scope))) := .of_store rfl rfl rfl
        exact .ok rfl (onward.trans pushed) (captures.push fits) trivial
      · have flat : ∀ params body home, v ≠ .closure params body home := fun ps b f same =>
          made ⟨ps, b, f, same⟩
        have source := covers.source
        rw [Tree.IsSource] at source
        rw [evalTree_plain _ _ flat]
        refine .push honours ⟨Machine.houses_plain fun ps b f => flat ps b (some f), ?_⟩
        exact Footing.good_of_flat flat (source.within fun _ _ => ⟨trivial, trivial⟩)
  | .reference path, scope, m, covers, enters, honours => by
      have root : m.Expects o scope path.root := covers.free _ (List.mem_singleton_self _)
      rw [evalTree]
      refine (honours_resolve honours enters keeps root).bind ?_
      rintro v _ - - ⟨rfl, fits⟩
      exact .push honours fits
  | .call head args, scope, m, covers, enters, honours => by
      obtain ⟨source, calls, parts⟩ := covers.parts
      by_cases sequence : head = .sequence
      · subst sequence
        rw [evalTree]
        exact honours_trees below keeps args scope parts enters honours
      · rw [evalTree_applied host _ sequence]
        refine .resume (.refl m) (bind_of_ok height_eq) ?_
        refine (honours_trees below keeps args scope parts enters honours).bind
          fun _ m₁ onward₁ honours₁ _ => ?_
        refine (Run.Honours.splitOff honours₁ _).bind fun values m₂ onward₂ honours₂ fits => ?_
        have onward := onward₁.trans onward₂
        exact honours_dispatch below keeps source
          (fun name mem => onward.expects enters (calls name mem)) fits
          (onward.enters enters) honours₂

theorem honours_trees (below : ∀ fewer, levels = fewer + 1 → Finds o host fewer)
    (keeps : host.Honours o) :
    ∀ (ts : List Tree) (scope : FrameId) {m : Machine σ}, m.CoversAll o scope ts → m.Enters scope →
      m.Honours o → Run.Honours o (fun _ _ => True) (evalTrees host (inside host levels) ts scope) m
  | [], _, _, _, _, honours => by
      rw [evalTrees]
      exact .pure honours trivial
  | t :: rest, scope, m, covers, enters, honours => by
      obtain ⟨source, free⟩ := covers
      rw [Tree.AreSource] at source
      rw [Tree.freeAll] at free
      rw [evalTrees]
      refine (honours_tree below keeps t scope ⟨source.1, fun name mem =>
        free name (List.mem_append_left _ mem)⟩ enters honours).bind
          fun _ m' onward honours' _ => ?_
      exact honours_trees below keeps rest scope ⟨source.2, fun name mem =>
        onward.expects enters (free name (List.mem_append_right _ mem))⟩
          (onward.enters enters) honours'

end

end Levels

theorem finds {o : Outlook σ} {host : Host σ} (keeps : host.Honours o) (levels : Nat) :
    Finds o host levels := by
  induction levels with
  | zero =>
      have below : ∀ fewer, 0 = fewer + 1 → Finds o host fewer := fun _ same => nomatch same
      exact fun t scope _ => honours_tree below keeps t scope
  | succ levels ih =>
      have below : ∀ fewer, levels + 1 = fewer + 1 → Finds o host fewer := by
        rintro _ ⟨⟩
        exact ih
      exact fun t scope _ => honours_tree below keeps t scope

/-! ## Scripts -/

section Scripts

variable {o : Outlook σ} {host : Host σ} {m : Machine σ} (keeps : host.Honours o)
  (honours : m.Honours o)

include keeps honours

theorem honours_runScript {t : Tree} (covers : m.Covers o m.session.ambient t) :
    Run.Honours o (fun _ _ => True) (runScript host t) m := by
  have ran := finds keeps m.levels t m.session.ambient m covers m.enters_ambient honours
  have step := runScript_eq host t m
  rw [evalIn] at step
  rcases ran.after with ⟨_, m', ended, onward, honours', -⟩
      | ⟨stop, m', ended, onward, honours', allows⟩
  · rw [ended] at step
    exact .ok step onward honours' trivial
  · rw [ended] at step
    cases stop with
    | failed fault =>
        have reset :
            ({ m' with session := { m'.session with depth := 0 } } : Machine σ).Honours o :=
          honours'.narrowed rfl rfl rfl (List.Subset.refl _) rfl (Nat.le_refl _) rfl
        have marked := reset.push ((Value.IsData.str fault.errorText).fits _ _)
        exact .error step (onward.trans (.of_store rfl rfl rfl)) marked allows
    | broken => exact .error step onward honours' allows
    | unfinished => exact .error step onward honours' allows

end Scripts

/-! ## Messages -/

theorem Tree.IsSource.bare {t : Tree} (source : t.IsSource) : t.bare.IsSource := by
  unfold Tree.bare
  split
  · rw [Tree.IsSource, Tree.AreSource] at source
    exact source.2.1
  · exact source

theorem Tree.free_bare {t : Tree} : t.bare.free ⊆ t.free := by
  unfold Tree.bare
  split
  · rw [Tree.free, Tree.freeAll, Tree.freeAll, List.append_nil]
    exact List.subset_append_right _ _
  · exact List.Subset.refl _

section Messages

variable {o : Outlook σ} {m : Machine σ} {language : Script.Language} {text : String}

/-- A script that has been translated looks up no names but those that are in view and those that it
binds somewhere. -/
theorem Machine.covers_of_translation {t : Tree} {serial : Nat}
    (translated : translation language text m = .ok (t, serial))
    (late : ∀ name ∈ t.defines, o.late name) :
    (m.numbered serial).Covers o m.session.ambient t.bare := by
  obtain ⟨source, free⟩ := Script.parse_settles translated
  refine ⟨source.bare, fun name mem => ?_⟩
  rcases free name (Tree.free_bare mem) with known | defined
  · exact .inr (.inl known)
  · exact .inl (late name defined)

/-- All names are late that the scripts of the text bind. -/
def Outlook.Awaits (o : Outlook σ) (language : Script.Language) (text : String)
    (m : Machine σ) : Prop :=
  ∀ t serial, translation language text m = .ok (t, serial) → ∀ name ∈ t.defines, o.late name

theorem Run.Honours.caught {r : Run σ Unit} (h : Run.Honours o (fun _ _ => True) r m) :
    Run.Honours o (fun _ _ => True) (Run.caught r) m := by
  have step := Run.caught_eq r m
  rcases h.after with ⟨_, m', ran, onward, honours, -⟩ | ⟨stop, m', ran, onward, honours, allows⟩
  · rw [ran] at step
    exact .ok step onward honours trivial
  · rw [ran] at step
    cases stop with
    | failed fault => exact .ok step onward honours trivial
    | broken => exact .error step onward honours allows
    | unfinished => exact .error step onward honours allows

variable {host : Host σ} (keeps : host.Honours o) (honours : m.Honours o)

include keeps honours

omit keeps in
/-- A text is translated in view of the scope of the session. -/
theorem honours_parsed (awaits : o.Awaits language text m) :
    Run.Honours o (fun m' result => ∀ t, result = .ok t → m'.Covers o m'.session.ambient t.bare)
      (parsed language text) m := by
  have step := parsed_eq language text (m := m)
  cases translated : translation language text m with
  | error fault =>
      rw [translated] at step
      exact .ok step (.refl m) honours nofun
  | ok read =>
      rw [translated] at step
      refine .ok step (.of_store rfl rfl rfl)
        (honours.narrowed rfl rfl rfl (List.Subset.refl _) rfl
          (Script.sequence_of_parse_settles translated).1 rfl)
        fun t same => ?_
      cases same
      exact m.covers_of_translation translated (awaits _ _ translated)

theorem honours_answer (policy : StackPolicy) (awaits : o.Awaits language text m) :
    Run.Honours o (fun _ _ => True) (answer host language policy text) m := by
  refine (honours_parsed honours awaits).bind fun result m₁ _ honours₁ covers => ?_
  have written : ∀ {m₂ : Machine σ}, m₂.Honours o → Run.Honours o (fun _ _ => True) (do
      let m ← get
      if policy = .consumeOnReply then modify (·.withStack [])
      return (host.encoder m).script m.session.values) m₂ := by
    intro m₂ honours₂
    refine .ok (answer_end host policy m₂) ?_ ?_ trivial
    · unfold Machine.answered
      split
      · exact .of_store rfl rfl rfl
      · exact .refl _
    · unfold Machine.answered
      split
      · exact honours₂.withStack (List.forall_mem_nil _)
      · exact honours₂
  cases result with
  | error fault =>
      exact (Run.Honours.push honours₁ ((Value.IsData.str _).fits _ _)).bind
        fun _ _ _ honours₂ _ => written honours₂
  | ok t =>
      exact (honours_runScript keeps honours₁ (covers t rfl)).caught.bind
        fun _ _ _ honours₂ _ => written honours₂

theorem honours_answerLine (awaits : o.Awaits .rho text m) :
    Run.Honours o (fun _ _ => True) (answerLine host text) m := by
  refine (honours_parsed honours awaits).bind fun result m₁ _ honours₁ covers => ?_
  cases result with
  | error fault => exact .pure honours₁ trivial
  | ok t =>
      exact (honours_runScript keeps honours₁ (covers t rfl)).caught.bind
        fun _ _ _ honours₂ _ => (Run.Honours.get honours₂).bind fun _ _ _ honours₃ _ =>
          .pure honours₃ trivial

end Messages

end PeerScript
