/-!
# Tables of keys and entries

A table is a list of pairs in which a key stands at most once.  `lookup_put`, `lookup_erase` and
`lookup_update` say what a table answers after a change.
-/

set_option autoImplicit false

namespace PeerScript.Association

variable {α β : Type} [DecidableEq α]

/-- The table without an entry for `key`. -/
def erase (key : α) (table : List (α × β)) : List (α × β) := table.filter (·.1 ≠ key)

/-- The table in which `key` has the entry `entry`. -/
def put (key : α) (entry : β) (table : List (α × β)) : List (α × β) :=
  (key, entry) :: erase key table

/-- The table in which the entry of `key`, if it has one, is changed. -/
def update (key : α) (change : β → β) (table : List (α × β)) : List (α × β) :=
  table.map fun (k, entry) => if k = key then (k, change entry) else (k, entry)

theorem lookup_erase (key other : α) (table : List (α × β)) :
    (erase key table).lookup other = if other = key then none else table.lookup other := by
  unfold erase
  induction table with
  | nil => simp
  | cons p ps ih =>
      obtain ⟨k, e⟩ := p
      by_cases hk : k = key
      · subst hk
        rw [List.filter_cons_of_neg (by simp), ih]
        by_cases ho : other = k
        · simp [ho]
        · rw [if_neg ho, if_neg ho, List.lookup_cons, beq_false_of_ne ho]
      · rw [List.filter_cons_of_pos (by simpa using hk), List.lookup_cons, List.lookup_cons]
        by_cases ho : other = k
        · subst ho; simp [hk]
        · rw [beq_false_of_ne ho]; exact ih

theorem lookup_put (key other : α) (entry : β) (table : List (α × β)) :
    (put key entry table).lookup other = if other = key then some entry
    else table.lookup other := by
  by_cases h : other = key
  · subst h; simp [put]
  · rw [put, List.lookup_cons, beq_false_of_ne h, if_neg h]
    exact (lookup_erase key other table).trans (if_neg h)

theorem lookup_update (key other : α) (change : β → β) (table : List (α × β)) :
    (update key change table).lookup other =
      if other = key then (table.lookup other).map change else table.lookup other := by
  unfold update
  induction table with
  | nil => simp
  | cons p ps ih =>
      obtain ⟨k, e⟩ := p
      by_cases ho : other = k
      · subst ho
        by_cases hk : other = key <;> simp [hk]
      · have skipped : ((k, e) :: ps).lookup other = ps.lookup other := by
          rw [List.lookup_cons, beq_false_of_ne ho]
        rw [skipped, ← ih, List.map_cons]
        dsimp only
        split <;> rw [List.lookup_cons, beq_false_of_ne ho]

/-- The keys of a table that has an order of its own, sorted. -/
def sortedNames (table : List (String × β)) : List String :=
  (table.map (·.1)).mergeSort fun a b => decide (a ≤ b)

end PeerScript.Association
