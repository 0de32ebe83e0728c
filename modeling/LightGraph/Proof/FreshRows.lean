import LightGraph.Proof.CellMap

/-!
# Fresh rows

`insert_row` takes the row its label's counter stands at for a new one. But the counter counts the
rows handed out, not the rows written: `insert_prop` writes any row it is told and leaves the
counter where it is, while the replay of the same write moves the counter past it. So a row is
fresh as long as no property is set at the counter or ahead of it (`NoneAhead`), and where one is,
some later `insert_row` gets the row it is in.
-/

set_option autoImplicit false

namespace LightGraph

open Lib

/-- A call that writes cells or allocates a row. -/
inductive PropCall
  | write (op : PropOp)
  | allocRow (label : LabelId)

namespace PropStore
section Persistent
variable [Bincode (Option Value)]

/-- A call as a step: it is always enabled. -/
def rowStep (s : PropStore) : PropCall → Option PropStore
  | .write op => some (s.perform op)
  | .allocRow label => some (s.allocRow label).2

/-- The row `insert_row` returns is new and holds the properties given, of a name the last one, and
every other cell is as it was. -/
structure InsertsFresh (s : PropStore) (label : LabelId) (props : List (String × Value)) :
    Prop where
  fresh : ∀ prop, s.getProp label prop (s.insertRow label props).1 = none
  once : ∀ order, (((s.insertRow label props).2.getRow order label
    (s.insertRow label props).1).map Prod.fst).Nodup
  row : ∀ order prop value, (prop, value) ∈ (s.insertRow label props).2.getRow order label
    (s.insertRow label props).1 ↔ (FiniteMap.ofList Prod.fst Prod.snd props).get prop = some value
  others : ∀ label' prop row, (label', row) ≠ (label, (s.insertRow label props).1) →
    (s.insertRow label props).2.getProp label' prop row = s.getProp label' prop row

end Persistent

/-- No property is set in the row the counter of its label stands at, or in a later one. -/
def NoneAhead (s : PropStore) : Prop :=
  ∀ label prop row, nextRow s.schemas label ≤ row.toNat → s.getProp label prop row = none

/-- The call sets no property at the counter or ahead of it, and does not turn the counter
over. -/
def StaysBehind (s : PropStore) : PropCall → Prop
  | .write (.insertProp label _ row value) =>
    value = none ∨ row.toNat < nextRow s.schemas label
  | .write (.setProp label prop row value) =>
    s.HasRow label prop row → value = none ∨ row.toNat < nextRow s.schemas label
  | .write (.insertRow label _) => nextRow s.schemas label + 1 < 2 ^ 32
  | .allocRow label => nextRow s.schemas label + 1 < 2 ^ 32

/-! ## What a call leaves -/

section Calls
variable [Bincode (Option Value)] {s : PropStore} {label : LabelId}

theorem cell_insertProp (s : PropStore) (label : LabelId) (prop : String) (row : UInt32)
    (value : Option Value) (c : PropCell) :
    (s.insertProp label prop row value).columns.cell c
      = if c = (label, prop, row) then value else s.columns.cell c := by
  rw [insertProp_columns, Columns.cell_putCell]

/-- The loop of `insert_row`: in its row the last property of a name stays. -/
theorem cell_foldl_insertProp (s : PropStore) (label : LabelId) (row : UInt32) (c : PropCell)
    (props : List (String × Value)) :
    (props.foldl (fun s p => s.insertProp label p.1 row (some p.2)) s).columns.cell c
      = if c.1 = label ∧ c.2.2 = row then
          ((FiniteMap.ofList Prod.fst Prod.snd props).get c.2.1).or (s.columns.cell c)
        else s.columns.cell c := by
  induction props using List.reverseRecOn with
  | nil => split <;> rfl
  | append_singleton props p ih =>
    obtain ⟨label', prop, row'⟩ := c
    rw [List.foldl_append, List.foldl_cons, List.foldl_nil, cell_insertProp, ih,
      FiniteMap.ofList_append, FiniteMap.get_put]
    by_cases hrow : label' = label ∧ row' = row
    · obtain ⟨rfl, rfl⟩ := hrow
      simp only [and_self, if_true]
      by_cases hprop : prop = p.1
      · rw [if_pos hprop, if_pos (by rw [hprop]), Option.some_or]
      · rw [if_neg hprop, if_neg (by simpa using hprop)]
    · rw [if_neg hrow, if_neg hrow, if_neg fun h => hrow ?_]
      obtain ⟨hlabel, hrest⟩ := Prod.mk.inj h
      exact ⟨hlabel, (Prod.mk.inj hrest).2⟩

theorem schemas_foldl_insertProp (label : LabelId) (row : UInt32)
    (props : List (String × Value)) : ∀ s : PropStore,
    (props.foldl (fun s p => s.insertProp label p.1 row (some p.2)) s).schemas = s.schemas := by
  induction props with
  | nil => exact fun _ => rfl
  | cons p props ih =>
    intro s
    rw [List.foldl_cons, ih, insertProp_schemas]

theorem nextRow_insertRow (s : PropStore) (label label' : LabelId)
    (props : List (String × Value)) :
    nextRow (s.insertRow label props).2.schemas label' =
      nextRow (s.allocRow label).2.schemas label' :=
  congrArg (nextRow · label') (schemas_foldl_insertProp label _ props _)

omit [Bincode (Option Value)] in
theorem nextRow_allocRow (h : nextRow s.schemas label + 1 < 2 ^ 32) (label' : LabelId) :
    nextRow (s.allocRow label).2.schemas label'
      = if label' = label then nextRow s.schemas label + 1 else nextRow s.schemas label' := by
  rw [allocRow, nextRow_put, toNat_add_one h]
  rfl

theorem cell_insertRow (s : PropStore) (label : LabelId) (props : List (String × Value))
    (c : PropCell) :
    (s.insertRow label props).2.columns.cell c
      = if c.1 = label ∧ c.2.2 = (s.insertRow label props).1 then
          ((FiniteMap.ofList Prod.fst Prod.snd props).get c.2.1).or (s.columns.cell c)
        else s.columns.cell c :=
  cell_foldl_insertProp (s.allocRow label).2 label _ c props

/-- **A row is fresh where no property is set in it.** -/
theorem insertsFresh_iff (s : PropStore) (label : LabelId) (props : List (String × Value)) :
    s.InsertsFresh label props ↔
      ∀ prop row, row.toNat = nextRow s.schemas label → s.getProp label prop row = none := by
  have hrow : (s.insertRow label props).1.toNat = nextRow s.schemas label := rfl
  constructor
  · intro h prop row hat
    rw [UInt32.toNat_inj.mp (hat.trans hrow.symm)]
    exact h.fresh prop
  · intro h
    have hfresh : ∀ prop, s.columns.cell (label, prop, (s.insertRow label props).1) = none :=
      fun prop => h prop _ hrow
    refine ⟨hfresh, fun order => nodup_getRow order _ _ _, fun order prop value => ?_,
      fun label' prop row hne => ?_⟩
    · rw [mem_getRow_iff]
      rw [getProp_eq_cell, cell_insertRow, if_pos ⟨rfl, rfl⟩, hfresh, Option.or_none]
    · rw [getProp_eq_cell, cell_insertRow, if_neg fun hand => hne (Prod.ext hand.1 hand.2)]
      rfl

end Calls

/-! ## Runs -/

section Runs
variable [Bincode (Option Value)] {s t : PropStore}

omit [Bincode (Option Value)] in
/-- The counter of the label moves past a row that is not set. -/
theorem NoneAhead.allocRow (h : s.NoneAhead) {label : LabelId}
    (hnext : nextRow s.schemas label + 1 < 2 ^ 32) : (s.allocRow label).2.NoneAhead := by
  intro label' prop row hle
  refine h label' prop row (Nat.le_trans ?_ hle)
  rw [nextRow_allocRow hnext]
  split
  · rename_i hl
    rw [hl]
    exact Nat.le_succ _
  · exact Nat.le_refl _

theorem NoneAhead.insertProp (h : s.NoneAhead) {label : LabelId} (prop : String) {row : UInt32}
    {value : Option Value} (hset : value = none ∨ row.toNat < nextRow s.schemas label) :
    (s.insertProp label prop row value).NoneAhead := by
  intro label' prop' row' hle
  rw [insertProp_schemas] at hle
  rw [getProp_eq_cell, cell_insertProp]
  split
  · rename_i hcell
    obtain ⟨rfl, hrest⟩ := Prod.mk.inj hcell
    rcases hset with hnone | hlt
    · exact hnone
    · rw [← (Prod.mk.inj hrest).2] at hlt
      exact absurd hle (Nat.not_le_of_gt hlt)
  · exact h label' prop' row' hle

theorem NoneAhead.insertRow (h : s.NoneAhead) {label : LabelId} (props : List (String × Value))
    (hnext : nextRow s.schemas label + 1 < 2 ^ 32) : (s.insertRow label props).2.NoneAhead := by
  intro label' prop row hle
  rw [nextRow_insertRow] at hle
  rw [getProp_eq_cell, cell_insertRow, if_neg ?_]
  · exact h.allocRow hnext label' prop row hle
  · intro hand
    have hrow : row = (s.insertRow label props).1 := hand.2
    rw [nextRow_allocRow hnext, if_pos hand.1, hrow] at hle
    exact absurd hle (Nat.not_succ_le_self _)

theorem NoneAhead.step (h : s.NoneAhead) {call : PropCall} (hcall : s.StaysBehind call)
    (hs : s.rowStep call = some t) : t.NoneAhead := by
  cases call with
  | allocRow label =>
    obtain rfl := Option.some.inj hs
    exact h.allocRow hcall
  | write op =>
    obtain rfl := Option.some.inj hs
    cases op with
    | insertProp label prop row value => exact h.insertProp prop hcall
    | insertRow label props => exact h.insertRow props hcall
    | setProp label prop row value =>
      show (s.setProp label prop row value).1.NoneAhead
      by_cases hrow : s.HasRow label prop row
      · rw [setProp_of_hasRow hrow]
        exact h.insertProp prop (hcall hrow)
      · rw [setProp_refused hrow]
        exact h

/-- `n` rows allocated. -/
def allocRows (label : LabelId) : Nat → PropStore → PropStore
  | 0, s => s
  | n + 1, s => allocRows label n (s.allocRow label).2

omit [Bincode (Option Value)] in
theorem allocRows_spec (label : LabelId) (n : Nat) : ∀ s : PropStore,
    nextRow s.schemas label + n < 2 ^ 32 →
    nextRow (s.allocRows label n).schemas label = nextRow s.schemas label + n ∧
    (s.allocRows label n).columns = s.columns := by
  induction n with
  | zero => exact fun s _ => ⟨rfl, rfl⟩
  | succ n ih =>
    intro s hn
    have hone : nextRow s.schemas label + 1 < 2 ^ 32 := by omega
    have hnext : nextRow (s.allocRow label).2.schemas label = nextRow s.schemas label + 1 := by
      rw [nextRow_allocRow hone, if_pos rfl]
    obtain ⟨hcount, hcol⟩ := ih (s.allocRow label).2 (by rw [hnext]; omega)
    refine ⟨?_, hcol⟩
    rw [allocRows, hcount, hnext]
    omega

/-- A property ahead of the counter is found by the `insert_row` that gets its row. -/
theorem not_insertsFresh {label : LabelId} {prop : String} {row : UInt32}
    (hahead : nextRow s.schemas label ≤ row.toNat) (hset : s.getProp label prop row ≠ none)
    (props : List (String × Value)) :
    ¬ (s.allocRows label (row.toNat - nextRow s.schemas label)).InsertsFresh label props := by
  have hlt : nextRow s.schemas label + (row.toNat - nextRow s.schemas label) < 2 ^ 32 := by
    have := row.toNat_lt
    omega
  obtain ⟨hcount, hcol⟩ := allocRows_spec label _ s hlt
  rw [insertsFresh_iff]
  intro h
  refine hset ((getProp_congr hcol label prop row).symm.trans (h prop row ?_))
  rw [hcount]
  omega

end Runs
end PropStore

/-- **`insert_row` gives a fresh row** in the runs that set no property at the counter of its label
or ahead of it, and where one is set, some later `insert_row` gets its row. -/
theorem inserted_rows_fresh [Bincode (Option Value)] {wal : Option WalLog} {calls : List PropCall}
    {s : PropStore} (hcalls : Guarded PropStore.rowStep PropStore.StaysBehind
      { PropStore.new with wal } calls)
    (hrun : run PropStore.rowStep { PropStore.new with wal } calls = some s) :
    (∀ label props, s.InsertsFresh label props) ∧
    ∀ label prop row value, nextRow s.schemas label ≤ row.toNat → ∃ n, ∀ props,
      ¬ ((s.insertProp label prop row (some value)).allocRows label n).InsertsFresh label
        props := by
  have hnone : s.NoneAhead := by
    refine guarded_invariant (fun s call t h hcall hs => h.step hcall hs) ?_ hcalls hrun
    intro label prop row _
    rfl
  constructor
  · intro label props
    rw [PropStore.insertsFresh_iff]
    exact fun prop row hat => hnone label prop row (Nat.le_of_eq hat.symm)
  · intro label prop row value hahead
    have hnext : nextRow (s.insertProp label prop row (some value)).schemas label ≤ row.toNat := by
      rw [PropStore.insertProp_schemas]
      exact hahead
    have hset : (s.insertProp label prop row (some value)).getProp label prop row ≠ none := by
      rw [PropStore.getProp_insertProp]
      exact Option.some_ne_none value
    exact ⟨_, PropStore.not_insertsFresh hnext hset⟩

/-- A property is set in row 0 before any row has been allocated. -/
def earlyWrite : List PropCall := [.write (.insertProp 0 "name" 0 (some (.string "Alice")))]

theorem insert_row_finds_property :
    ¬ ∀ (calls : List PropCall) (s : PropStore),
      run PropStore.rowStep PropStore.new calls = some s →
      ∀ label props, s.InsertsFresh label props := by
  intro h
  have hfresh := (h earlyWrite _ rfl 0 [("age", .int 30)]).fresh "name"
  have hset : (PropStore.new.insertProp 0 "name" 0 (some (.string "Alice"))).getProp 0 "name" 0
      = some (.string "Alice") := PropStore.getProp_insertProp _ _ _ _ _
  exact absurd (hset.symm.trans hfresh) (by simp)

/-- A row is allocated and written, and another is inserted. -/
def writtenBehind : List PropCall :=
  [.allocRow 0, .write (.insertProp 0 "name" 0 (some (.string "Alice"))),
    .write (.setProp 0 "name" 5 none), .write (.insertRow 0 [("name", .string "Bob")])]

theorem inserted_rows_fresh_three :
    ∃ s, run PropStore.rowStep PropStore.new writtenBehind = some s ∧
      ∀ label props, s.InsertsFresh label props := by
  have hcalls : Guarded PropStore.rowStep PropStore.StaysBehind { PropStore.new with wal := none }
      writtenBehind := by
    refine Guarded.cons rfl (show nextRow _ 0 + 1 < 2 ^ 32 by decide) ?_
    refine Guarded.cons rfl (Or.inr (show (0 : UInt32).toNat < nextRow _ 0 by decide)) ?_
    refine Guarded.cons rfl (fun _ => Or.inl rfl) ?_
    exact Guarded.cons rfl (show nextRow _ 0 + 1 < 2 ^ 32 by decide) trivial
  exact ⟨_, rfl, (inserted_rows_fresh hcalls rfl).1⟩

end LightGraph
