import LightGraph.Proof.PropAgreement
import LightGraph.Proof.RowNumbers

/-!
# The property store as a map of cells

A column is made by the first write to it and grows to the highest row written, with gaps between.
A reader sees less: a finite map from cells to values, and of every column how far it reaches.
`insert_prop` writes anywhere and `set_prop` where its column reaches, which is as far as the
highest row an `insert_prop` used (`Follows`); a row is read by going through the columns.
-/

set_option autoImplicit false

namespace LightGraph

open Lib

/-! ## The map -/

/-- A call of `insert_prop` or of `set_prop`. -/
inductive CellCall
  | insertProp (label : LabelId) (prop : String) (row : UInt32) (value : Option Value)
  | setProp (label : LabelId) (prop : String) (row : UInt32) (value : Option Value)

namespace CellCall

def cell : CellCall → PropCell
  | .insertProp label prop row _ => (label, prop, row)
  | .setProp label prop row _ => (label, prop, row)

def value : CellCall → Option Value
  | .insertProp _ _ _ value => value
  | .setProp _ _ _ value => value

/-- An `insert_prop` in the cell's column, at its row or a later one. -/
def reaches (c : PropCell) : CellCall → Bool
  | .insertProp label prop row _ => c.1 = label ∧ c.2.1 = prop ∧ c.2.2 ≤ row
  | .setProp _ _ _ _ => false

/-- The call writes its cell, after the calls `before`. -/
def succeeds (before : List CellCall) : CellCall → Bool
  | .insertProp _ _ _ _ => true
  | .setProp label prop row _ => before.any (reaches (label, prop, row))

end CellCall

/-- The value of the last successful write to the cell. The calls are newest first. -/
def lastWrite (c : PropCell) : List CellCall → Option Value
  | [] => none
  | call :: before =>
    if call.cell = c ∧ call.succeeds before then call.value else lastWrite c before

theorem any_reaches_iff {c : PropCell} {calls : List CellCall} :
    calls.any (CellCall.reaches c) = true ↔
      ∃ row value, CellCall.insertProp c.1 c.2.1 row value ∈ calls ∧ c.2.2 ≤ row := by
  rw [List.any_eq_true]
  constructor
  · rintro ⟨call, hcall, hreach⟩
    cases call with
    | insertProp label prop row value =>
      obtain ⟨hlabel, hprop, hrow⟩ := of_decide_eq_true hreach
      exact ⟨row, value, by rw [hlabel, hprop]; exact hcall, hrow⟩
    | setProp label prop row value => exact absurd hreach (by simp [CellCall.reaches])
  · rintro ⟨row, value, hcall, hrow⟩
    exact ⟨_, hcall, decide_eq_true ⟨rfl, rfl, hrow⟩⟩

/-! ## One call -/

namespace PropStore

theorem getProp_eq_cell (s : PropStore) (label : LabelId) (prop : String) (row : UInt32) :
    s.getProp label prop row = s.columns.cell (label, prop, row) := rfl

/-- The cells a column reaches over after a write. -/
theorem hasRow_putCell (s t : PropStore) (label : LabelId) (prop : String) (row : UInt32)
    (value : Option Value) (h : t.columns = s.columns.putCell label prop row value)
    (label' : LabelId) (prop' : String) (row' : UInt32) :
    t.HasRow label' prop' row' ↔
      (label' = label ∧ prop' = prop ∧ row' ≤ row) ∨ s.HasRow label' prop' row' := by
  unfold HasRow
  rw [h, Columns.putCell, FiniteMap.get_put]
  by_cases hcol : (label', prop') = (label, prop)
  · obtain ⟨rfl, rfl⟩ := Prod.mk.inj hcol
    rw [if_pos rfl]
    constructor
    · rintro ⟨col, hget, hlt⟩
      obtain rfl := Option.some.inj hget
      rcases (PropertyColumn.lt_length_put _ row value _).mp hlt with hle | hold
      · exact Or.inl ⟨rfl, rfl, hle⟩
      · cases hget' : s.columns.get (label', prop') with
        | none =>
          rw [hget'] at hold
          exact absurd hold (Nat.not_lt_zero _)
        | some col =>
          rw [hget'] at hold
          exact Or.inr ⟨col, rfl, hold⟩
    · rintro (⟨-, -, hle⟩ | ⟨col, hget, hlt⟩)
      · exact ⟨_, rfl, (PropertyColumn.lt_length_put _ row value _).mpr (Or.inl hle)⟩
      · refine ⟨_, rfl, (PropertyColumn.lt_length_put _ row value _).mpr (Or.inr ?_)⟩
        rw [hget]
        exact hlt
  · rw [if_neg hcol, or_iff_right]
    exact fun hand => hcol (by rw [hand.1, hand.2.1])

variable [Bincode (Option Value)]

/-- Where there is no row, the store stays as it is. -/
theorem setProp_refused {s : PropStore} {label : LabelId} {prop : String} {row : UInt32}
    (h : ¬ s.HasRow label prop row) (value : Option Value) :
    s.setProp label prop row value = (s, false) := by
  unfold setProp
  cases hcol : s.columns.get (label, prop) with
  | none => rfl
  | some col =>
    have hset : col.set row value = (col, false) := by
      rw [PropertyColumn.set, if_neg fun hlt => h ⟨col, hcol, hlt⟩]
    have hput : s.columns.put (label, prop) col = s.columns := by
      refine FiniteMap.ext fun k => ?_
      rw [FiniteMap.get_put]
      split
      · rename_i hk
        rw [hk, hcol]
      · rfl
    simp only [hset, hput, Bool.false_eq_true, if_false]

theorem setProp_ok_iff {s : PropStore} {label : LabelId} {prop : String} {row : UInt32}
    {value : Option Value} :
    (s.setProp label prop row value).2 = true ↔ s.HasRow label prop row := by
  by_cases hrow : s.HasRow label prop row
  · rw [setProp_of_hasRow hrow]
    exact iff_of_true rfl hrow
  · rw [setProp_refused hrow]
    exact iff_of_false Bool.false_ne_true hrow

/-- The store after a call, and whether the call has written. -/
def call (s : PropStore) : CellCall → PropStore × Bool
  | .insertProp label prop row value => (s.insertProp label prop row value, true)
  | .setProp label prop row value => s.setProp label prop row value

def callAll (s : PropStore) (calls : List CellCall) : PropStore :=
  calls.foldl (fun s call => (s.call call).1) s

end PropStore

/-- The store is to readers what the calls made it, newest first. -/
structure Follows (s : PropStore) (calls : List CellCall) : Prop where
  cells : ∀ c : PropCell, s.columns.cell c = lastWrite c calls
  rows : ∀ c : PropCell, s.HasRow c.1 c.2.1 c.2.2 ↔ calls.any (CellCall.reaches c) = true

namespace Follows
variable [Bincode (Option Value)] {s t : PropStore} {calls : List CellCall}

omit [Bincode (Option Value)] in
theorem start {s : PropStore} (h : s.columns = ∅) : Follows s [] := by
  constructor
  · intro c
    rw [Columns.cell, h, FiniteMap.get_empty]
    rfl
  · intro c
    refine iff_of_false ?_ Bool.false_ne_true
    rintro ⟨col, hcol, -⟩
    rw [h, FiniteMap.get_empty] at hcol
    exact absurd hcol (by simp)

omit [Bincode (Option Value)] in
/-- A call that writes. -/
theorem written (h : Follows s calls) {call : CellCall} {label : LabelId} {prop : String}
    {row : UInt32} {value : Option Value} (hcell : call.cell = (label, prop, row))
    (hvalue : call.value = value) (hok : call.succeeds calls = true)
    (hcol : t.columns = s.columns.putCell label prop row value)
    (hreach : ∀ c, call.reaches c = true ∨ s.HasRow c.1 c.2.1 c.2.2 ↔
      (c.1 = label ∧ c.2.1 = prop ∧ c.2.2 ≤ row) ∨ s.HasRow c.1 c.2.1 c.2.2) :
    Follows t (call :: calls) := by
  constructor
  · intro c
    rw [hcol, Columns.cell_putCell, lastWrite, hcell, hvalue, h.cells c]
    by_cases hc : c = (label, prop, row)
    · rw [if_pos hc, if_pos ⟨hc.symm, hok⟩]
    · rw [if_neg hc, if_neg fun hand => hc hand.1.symm]
  · intro c
    rw [PropStore.hasRow_putCell s t label prop row value hcol, ← hreach c, List.any_cons,
      Bool.or_eq_true, h.rows c]

theorem insertProp (h : Follows s calls) (label : LabelId) (prop : String) (row : UInt32)
    (value : Option Value) :
    Follows (s.insertProp label prop row value) (.insertProp label prop row value :: calls) := by
  refine h.written rfl rfl rfl (PropStore.insertProp_columns s label prop row value) fun c => ?_
  rw [CellCall.reaches, decide_eq_true_iff]

/-- `set_prop` reaches no further than its column does already. -/
theorem setProp (h : Follows s calls) (label : LabelId) (prop : String) (row : UInt32)
    (value : Option Value) :
    Follows (s.setProp label prop row value).1 (.setProp label prop row value :: calls) := by
  by_cases hrow : s.HasRow label prop row
  · rw [PropStore.setProp_of_hasRow hrow]
    refine h.written rfl rfl ((h.rows (label, prop, row)).mp hrow)
      (PropStore.insertProp_columns s label prop row value) fun c => ?_
    refine (or_iff_right (show ¬ false = true from Bool.false_ne_true)).trans
      (or_iff_right_of_imp ?_).symm
    rintro ⟨hlabel, hprop, hle⟩
    obtain ⟨col, hcol, hlt⟩ := hrow
    rw [hlabel, hprop]
    exact ⟨col, hcol, Nat.lt_of_le_of_lt hle hlt⟩
  · rw [PropStore.setProp_refused hrow]
    have hno : ¬ calls.any (CellCall.reaches (label, prop, row)) = true :=
      fun hany => hrow ((h.rows (label, prop, row)).mpr hany)
    constructor
    · intro c
      rw [lastWrite, if_neg fun hand => hno hand.2, h.cells c]
    · intro c
      rw [h.rows c, List.any_cons]
      rfl

theorem call (h : Follows s calls) (call : CellCall) :
    Follows (s.call call).1 (call :: calls) := by
  cases call with
  | insertProp label prop row value => exact h.insertProp label prop row value
  | setProp label prop row value => exact h.setProp label prop row value

/-- Any number of calls. -/
theorem callAll (h : Follows s calls) (more : List CellCall) :
    Follows (s.callAll more) (more.reverse ++ calls) := by
  induction more generalizing s calls with
  | nil => exact h
  | cons call more ih =>
    rw [List.reverse_cons, List.append_assoc]
    exact ih (h.call call)

end Follows

/-! ## A row -/

namespace PropStore
variable (order : FiniteMap.IterOrder (LabelId × String) PropertyColumn) (s : PropStore)
  (label : LabelId) (row : UInt32)

/-- What one column adds to a row. -/
theorem getRow_column {label : LabelId} {row : UInt32} {key : LabelId × String}
    {col : PropertyColumn} {pair : String × Value} :
    (if key.1 = label then
      match col.get row with
      | some (some val) => some (key.2, val)
      | _ => none
    else none) = some pair ↔ key = (label, pair.1) ∧ col.get row = some (some pair.2) := by
  obtain ⟨label', prop⟩ := key
  obtain ⟨prop', value⟩ := pair
  split
  · rename_i hlabel
    cases col.get row with
    | none => simp
    | some val =>
      cases val with
      | none => simp
      | some val =>
        subst hlabel
        simp
  · rename_i hlabel
    simp [hlabel]

theorem mem_getRow_iff (prop : String) (value : Value) :
    (prop, value) ∈ s.getRow order label row ↔ s.getProp label prop row = some value := by
  have hget : s.getProp label prop row = some value ↔
      ∃ col, s.columns.get (label, prop) = some col ∧ col.get row = some (some value) := by
    unfold getProp
    cases s.columns.get (label, prop) with
    | none => simp
    | some col =>
      simp only [Option.some.injEq, exists_eq_left']
      cases col.get row with
      | none => simp
      | some val => simp
  rw [hget, getRow, List.mem_filterMap]
  constructor
  · rintro ⟨⟨key, col⟩, hentry, hpair⟩
    obtain ⟨rfl, hval⟩ := getRow_column.mp hpair
    exact ⟨col, (order.mem_entries _ _ _).mp hentry, hval⟩
  · rintro ⟨col, hcol, hval⟩
    exact ⟨((label, prop), col), (order.mem_entries _ _ _).mpr hcol,
      getRow_column.mpr ⟨rfl, hval⟩⟩

/-- No property comes twice: a column is under one key. -/
theorem nodup_getRow : ((s.getRow order label row).map Prod.fst).Nodup := by
  have hkeys := List.pairwise_map.mp (order.nodup s.columns)
  refine List.pairwise_map.mpr (List.Pairwise.filterMap _ ?_ hkeys)
  intro e e' hne pair hpair pair' hpair' heq
  have hkey := (getRow_column.mp hpair).1
  have hkey' := (getRow_column.mp hpair').1
  exact hne (by rw [hkey, hkey', heq])

end PropStore

/-- The store answers as a map that has seen the calls, oldest first. -/
structure PropStore.ActsAsMap [Bincode (Option Value)] (s : PropStore) (calls : List CellCall) :
    Prop where
  read : ∀ label prop row, s.getProp label prop row = lastWrite (label, prop, row) calls.reverse
  setProp_ok : ∀ label prop row value, (s.setProp label prop row value).2 = true ↔
    ∃ row' value', CellCall.insertProp label prop row' value' ∈ calls ∧ row ≤ row'
  setProp_refused : ∀ label prop row value, (s.setProp label prop row value).2 = false →
    (s.setProp label prop row value).1 = s
  row_nodup : ∀ order label row, ((s.getRow order label row).map Prod.fst).Nodup
  mem_row : ∀ order label row prop value,
    (prop, value) ∈ s.getRow order label row ↔ s.getProp label prop row = some value

/-- **The property store is a finite map** to its readers, after any calls on a store without
columns, and `set_prop` finds the rows that an `insert_prop` has reached. -/
theorem prop_store_is_map [Bincode (Option Value)] (schemas : FiniteMap LabelId UInt32)
    (wal : Option WalLog) (calls : List CellCall) :
    (PropStore.callAll { columns := ∅, schemas, wal } calls).ActsAsMap calls := by
  have h : Follows (PropStore.callAll { columns := ∅, schemas, wal } calls) calls.reverse := by
    have hstart : Follows { columns := ∅, schemas, wal } [] := Follows.start rfl
    have hall := hstart.callAll calls
    rwa [List.append_nil] at hall
  generalize PropStore.callAll { columns := ∅, schemas, wal } calls = s at h
  constructor
  · exact fun label prop row => h.cells (label, prop, row)
  · intro label prop row value
    rw [PropStore.setProp_ok_iff, h.rows (label, prop, row), any_reaches_iff]
    simp only [List.mem_reverse]
  · intro label prop row value hok
    have hrow : ¬ s.HasRow label prop row := fun hrow =>
      Bool.false_ne_true (hok.symm.trans (PropStore.setProp_ok_iff.mpr hrow))
    rw [PropStore.setProp_refused hrow]
  · exact fun order label row => s.nodup_getRow order label row
  · exact fun order label row prop value => s.mem_getRow_iff order label row prop value

/-- A gap is there to be set and reads as nothing until it is. -/
example :
    let s := PropStore.new.callAll [.insertProp 0 "age" 2 (some (.int 30))]
    s.getProp 0 "age" 1 = none ∧ (s.setProp 0 "age" 1 none).2 = true ∧
      (s.setProp 0 "age" 3 none).2 = false := by
  decide +kernel

end LightGraph
