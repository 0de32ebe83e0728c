import LightGraph.Proof.PropCells

/-!
# Row numbers across restarts

The number of the next row of a label is not logged. `PropStore::open` takes it from the cells it
replays: one more than the highest row any of them is in (`PropReplay.Exact`). A row that was
allocated and has no cell is no part of that, so the number comes back as it was exactly where the
last row allocated has a cell; otherwise the rows behind the last cell are handed out again.
-/

set_option autoImplicit false

namespace LightGraph

open Lib

/-- What `alloc_row` returns next for the label. -/
def nextRow (schemas : FiniteMap LabelId UInt32) (label : LabelId) : Nat :=
  ((schemas.get label).getD 0).toNat

/-- Some column of the label reaches over row `i`. -/
def Columns.Covers (columns : Columns) (label : LabelId) (i : Nat) : Prop :=
  ∃ prop col, columns.get (label, prop) = some col ∧ i < col.values.length

/-- A store, and the row numbers `alloc_row` and `insert_row` have returned, oldest first. -/
structure RowSession where
  store : PropStore
  given : List (LabelId × UInt32)

inductive RowCall
  | allocRow (label : LabelId)
  | insertRow (label : LabelId) (props : List (String × Value))
  | insertProp (label : LabelId) (prop : String) (row : UInt32) (value : Option Value)
  | setProp (label : LabelId) (prop : String) (row : UInt32) (value : Option Value)
  /-- the store is flushed and dropped, and its directory opened again -/
  | reopen

namespace RowSession

/-- The row numbers returned for one label. -/
def rows (s : RowSession) (label : LabelId) : List UInt32 :=
  (s.given.filter fun g => g.1 = label).map Prod.snd

/-- A new directory. -/
def start : RowSession := { store := PropStore.fresh, given := [] }

/-- Of every label the last row allocated has a cell. -/
def LastRowsWritten (s : RowSession) : Prop :=
  ∀ label, nextRow s.store.schemas label ≠ 0 →
    s.store.columns.Covers label (nextRow s.store.schemas label - 1)

section Persistent
variable [Bincode (Option Value)]

/-- Cells are written in rows that were returned. -/
def step (s : RowSession) : RowCall → Option RowSession
  | .allocRow label =>
    let (row, store) := s.store.allocRow label
    some { store, given := s.given ++ [(label, row)] }
  | .insertRow label props =>
    let (row, store) := s.store.insertRow label props
    some { store, given := s.given ++ [(label, row)] }
  | .insertProp label prop row value =>
    if (label, row) ∈ s.given then some { s with store := s.store.insertProp label prop row value }
    else none
  | .setProp label prop row value =>
    if (label, row) ∈ s.given then some { s with store := (s.store.setProp label prop row value).1 }
    else none
  | .reopen =>
    match PropStore.open s.store.file with
    | .ok store => some { s with store }
    | .error _ => none

/-- The calls log no long name, and the store is closed over logged rows only. -/
def Kept (s : RowSession) : RowCall → Prop
  | .allocRow _ => True
  | .insertRow label props => (PropOp.insertRow label props).LogsShort s.store
  | .insertProp label prop row value => (PropOp.insertProp label prop row value).LogsShort s.store
  | .setProp label prop row value => (PropOp.setProp label prop row value).LogsShort s.store
  | .reopen => (∀ r ∈ s.store.history, r.Fits) ∧ s.LastRowsWritten

end Persistent
end RowSession

/-! ## What is replayed -/

namespace PropertyColumn

/-- A column that is written in reaches over the row and all it reached over. -/
theorem lt_length_put (col : PropertyColumn) (row : UInt32) (val : Option Value) (i : Nat) :
    i < (col.put row val).values.length ↔ i ≤ row.toNat ∨ i < col.values.length := by
  have hsome : ∀ l : List (Option Value), i < l.length ↔ (l[i]?).isSome = true := by
    intro l
    rw [isSome_getElem?]
  rw [hsome, hsome, getElem?_put]
  rcases Nat.lt_trichotomy i row.toNat with hlt | heq | hgt
  · rw [if_neg (Nat.ne_of_lt hlt), if_pos hlt]
    exact iff_of_true rfl (Or.inl (Nat.le_of_lt hlt))
  · rw [if_pos heq]
    exact iff_of_true rfl (Or.inl (Nat.le_of_eq heq))
  · rw [if_neg (Nat.ne_of_gt hgt), if_neg (Nat.not_lt_of_gt hgt)]
    exact (or_iff_right (Nat.not_le_of_gt hgt)).symm

end PropertyColumn

theorem Columns.covers_putCell (columns : Columns) (label : LabelId) (prop : String)
    (row : UInt32) (val : Option Value) (label' : LabelId) (i : Nat) :
    (columns.putCell label prop row val).Covers label' i ↔
      (label' = label ∧ i ≤ row.toNat) ∨ columns.Covers label' i := by
  constructor
  · rintro ⟨prop', col, hcol, hi⟩
    rw [putCell, FiniteMap.get_put] at hcol
    split at hcol
    · rename_i hkey
      obtain ⟨rfl, rfl⟩ := Prod.mk.inj hkey
      obtain rfl := Option.some.inj hcol
      rcases (PropertyColumn.lt_length_put _ row val i).mp hi with hle | hold
      · exact Or.inl ⟨rfl, hle⟩
      · cases hget : columns.get (label', prop') with
        | none =>
          rw [hget] at hold
          exact absurd hold (Nat.not_lt_zero i)
        | some old =>
          rw [hget] at hold
          exact Or.inr ⟨prop', old, hget, hold⟩
    · exact Or.inr ⟨prop', col, hcol, hi⟩
  · intro h
    have hnew : (columns.putCell label prop row val).get (label, prop)
        = some (((columns.get (label, prop)).getD PropertyColumn.new).put row val) :=
      FiniteMap.get_put_self _ _ _
    rcases h with ⟨rfl, hle⟩ | ⟨prop', col, hcol, hi⟩
    · exact ⟨prop, _, hnew, (PropertyColumn.lt_length_put _ row val i).mpr (Or.inl hle)⟩
    · by_cases hkey : (label', prop') = (label, prop)
      · obtain ⟨rfl, rfl⟩ := Prod.mk.inj hkey
        refine ⟨prop', _, hnew, (PropertyColumn.lt_length_put _ row val i).mpr (Or.inr ?_)⟩
        rw [hcol]
        exact hi
      · exact ⟨prop', col, (FiniteMap.get_put_ne _ _ hkey).trans hcol, hi⟩

theorem nextRow_put (schemas : FiniteMap LabelId UInt32) (label label' : LabelId) (row : UInt32) :
    nextRow (schemas.put label row) label'
      = if label' = label then row.toNat else nextRow schemas label' := by
  unfold nextRow
  rw [FiniteMap.get_put]
  split <;> rfl

theorem toNat_add_one {row : UInt32} (h : row.toNat + 1 < 2 ^ 32) :
    (row + 1).toNat = row.toNat + 1 := by
  rw [UInt32.toNat_add, UInt32.toNat_one, Nat.mod_eq_of_lt h]

/-- The next row is the first that no column reaches over. -/
def PropReplay.Exact (st : PropReplay) : Prop :=
  ∀ label i, i < nextRow st.schemas label ↔ st.columns.Covers label i

namespace PropReplay

theorem exact_empty : empty.Exact := by
  intro label i
  refine iff_of_false (Nat.not_lt_zero i) fun hcov => ?_
  obtain ⟨prop, col, hcol, -⟩ := hcov
  rw [empty, FiniteMap.get_empty] at hcol
  exact absurd hcol (by simp)

theorem Exact.onRecord [Bincode (Option Value)] {st : PropReplay} (h : st.Exact) {label : LabelId}
    {prop : String} {row : UInt32} (value : Option Value)
    (hname : (utf8Bytes prop).length < 256) (hrow : row.toNat + 1 < 2 ^ 32) :
    (st.onRecord (PropStore.cellRecord label prop row value)).Exact := by
  intro label' i
  rw [PropStore.onRecord_cellRecord_eq st value hname, nextRow_put, Columns.covers_putCell,
    ← h label' i]
  split
  · rename_i hl
    rw [UInt32.toNat_max, toNat_add_one hrow, lt_max_iff, Nat.lt_succ_iff, hl, or_comm]
    exact or_congr (and_iff_right rfl).symm Iff.rfl
  · rename_i hl
    exact (or_iff_right fun hand => hl hand.1).symm

end PropReplay

/-! ## The store -/

/-- The columns and the log agree, also on the number of rows, and there is no cell behind the
rows allocated. -/
structure PropStore.Counted [Bincode (Option Value)] (s : PropStore) : Prop where
  log : ∃ log, s.Logged log ∧ s.Mirrored log ∧ (∀ r ∈ log, r.Fits) ∧
    ((log ++ s.history).foldl PropReplay.onRecord PropReplay.empty).Exact
  below : ∀ label i, s.columns.Covers label i → i < nextRow s.schemas label

namespace PropStore
variable [Bincode (Option Value)]

theorem insertProp_schemas (s : PropStore) (label : LabelId) (prop : String) (row : UInt32)
    (value : Option Value) : (s.insertProp label prop row value).schemas = s.schemas := by
  unfold PropStore.insertProp PropStore.walSendCell
  split <;> [rfl; (split <;> rfl)]

theorem setProp_schemas (s : PropStore) (label : LabelId) (prop : String) (row : UInt32)
    (value : Option Value) : (s.setProp label prop row value).1.schemas = s.schemas := by
  by_cases hrow : s.HasRow label prop row
  · rw [setProp_of_hasRow hrow]
    exact insertProp_schemas s label prop row value
  · unfold setProp
    split
    · rfl
    · rename_i col hcol
      have hlt : ¬ row.toNat < col.values.length := fun hlt => hrow ⟨col, hcol, hlt⟩
      rw [PropertyColumn.set, if_neg hlt]
      rfl

namespace Counted
variable {s t : PropStore}

theorem of_same (h : s.Counted) (hcol : t.columns = s.columns) (hwal : t.wal = s.wal)
    (hnext : ∀ label, nextRow s.schemas label ≤ nextRow t.schemas label) : t.Counted := by
  obtain ⟨log, hlog, hmir, hfit, hexact⟩ := h.log
  obtain ⟨hlog', hmir'⟩ := same_of_fields hcol hwal hlog hmir
  have hhist : t.history = s.history := by
    rw [history, sent, hwal]
    rfl
  refine ⟨⟨log, hlog', hmir', hfit, by rw [hhist]; exact hexact⟩, fun label i hcov => ?_⟩
  rw [hcol] at hcov
  exact Nat.lt_of_lt_of_le (h.below label i hcov) (hnext label)

theorem insertProp (h : s.Counted) {label : LabelId} {prop : String} {row : UInt32}
    (value : Option Value) (hname : (utf8Bytes prop).length < 256)
    (hrow : row.toNat < nextRow s.schemas label) :
    (s.insertProp label prop row value).Counted := by
  obtain ⟨log, hlog, hmir, hfit, hexact⟩ := h.log
  obtain ⟨w, hw⟩ := hlog.wal
  have hbound : row.toNat + 1 < 2 ^ 32 :=
    Nat.lt_of_le_of_lt hrow ((s.schemas.get label).getD 0).toNat_lt
  refine ⟨⟨log, hlog.insertProp label prop row value, hmir.insertProp hlog value hname, hfit, ?_⟩,
    fun label' i hcov => ?_⟩
  · rw [insertProp_history hw, ← List.append_assoc, List.foldl_append, List.foldl_cons,
      List.foldl_nil]
    exact hexact.onRecord value hname hbound
  · rw [insertProp_columns, Columns.covers_putCell] at hcov
    rw [insertProp_schemas]
    rcases hcov with ⟨rfl, hle⟩ | hold
    · exact Nat.lt_of_le_of_lt hle hrow
    · exact h.below label' i hold

theorem setProp (h : s.Counted) {label : LabelId} {prop : String} {row : UInt32}
    (value : Option Value) (hname : (PropOp.setProp label prop row value).LogsShort s)
    (hrow : row.toNat < nextRow s.schemas label) :
    (s.setProp label prop row value).1.Counted := by
  by_cases hhas : s.HasRow label prop row
  · rw [setProp_of_hasRow hhas]
    exact h.insertProp value (hname hhas) hrow
  · obtain ⟨hcol, hwal⟩ := setProp_of_not_hasRow hhas value
    exact h.of_same hcol hwal fun _ => by rw [setProp_schemas]

theorem allocRow (h : s.Counted) {label : LabelId}
    (hnext : nextRow s.schemas label + 1 < 2 ^ 32) : (s.allocRow label).2.Counted := by
  refine h.of_same rfl rfl fun label' => ?_
  show _ ≤ nextRow (s.schemas.put label _) label'
  rw [nextRow_put]
  split
  · rename_i hl
    rw [toNat_add_one hnext, hl]
    exact Nat.le_succ _
  · exact Nat.le_refl _

/-- The loop of `insert_row`. -/
theorem foldl_insertProp {label : LabelId} {row : UInt32} :
    ∀ {props : List (String × Value)} {s : PropStore}, s.Counted →
    (∀ p ∈ props, (utf8Bytes p.1).length < 256) → row.toNat < nextRow s.schemas label →
    (props.foldl (fun s p => s.insertProp label p.1 row (some p.2)) s).Counted ∧
    (props.foldl (fun s p => s.insertProp label p.1 row (some p.2)) s).schemas = s.schemas := by
  intro props
  induction props with
  | nil => exact fun h _ _ => ⟨h, rfl⟩
  | cons p props ih =>
    intro s h hshort hrow
    have hschemas := insertProp_schemas s label p.1 row (some p.2)
    obtain ⟨hcounted, hsame⟩ := ih (h.insertProp (some p.2) (hshort p List.mem_cons_self) hrow)
      (fun q hq => hshort q (List.mem_cons_of_mem p hq)) (by rw [hschemas]; exact hrow)
    exact ⟨hcounted, hsame.trans hschemas⟩

/-- A store that is closed and opened again has its columns, and as many rows as they reach
over. -/
theorem reopen (h : s.Counted) (hfit : ∀ r ∈ s.history, r.Fits) :
    ∃ t, PropStore.open s.file = .ok t ∧ t.columns = s.columns ∧ t.Counted ∧
      ∀ label i, i < nextRow t.schemas label ↔ s.columns.Covers label i := by
  obtain ⟨log, hlog, hmir, hfits, hexact⟩ := h.log
  have hall : ∀ r ∈ log ++ s.history, r.Fits := fun r hr =>
    (List.mem_append.mp hr).elim (hfits r) (hfit r)
  have hholds := hlog.logHolds hall
  have hopen := open_of_holds hholds
  obtain ⟨t, ht, htlog, htmir, hthist⟩ := open_eq hholds
  obtain rfl := Except.ok.inj (hopen.symm.trans ht)
  refine ⟨_, hopen, hmir.symm, ⟨⟨_, htlog, htmir, hall, ?_⟩, fun label i hcov => ?_⟩,
    fun label i => ?_⟩
  · rw [hthist, List.append_nil]
    exact hexact
  · exact (hexact label i).mpr hcov
  · rw [show s.columns = _ from hmir]
    exact hexact label i

end Counted
end PropStore

/-! ## Runs -/

namespace RowSession

/-- The row numbers that were returned are all those below the next one, in order. -/
structure Numbered [Bincode (Option Value)] (s : RowSession) : Prop where
  store : s.store.Counted
  rows : ∀ label, s.rows label
    = (List.range (nextRow s.store.schemas label)).map UInt32.ofNat

theorem rows_append {s t : RowSession} {label : LabelId} {row : UInt32}
    (h : t.given = s.given ++ [(label, row)]) (label' : LabelId) :
    t.rows label' = if label' = label then s.rows label' ++ [row] else s.rows label' := by
  rw [rows, rows, h, List.filter_append, List.map_append]
  by_cases hl : label' = label
  · rw [if_pos hl, hl, List.filter_singleton, decide_eq_true rfl]
    rfl
  · rw [if_neg hl, List.filter_singleton, decide_eq_false (Ne.symm hl)]
    exact List.append_nil _

variable [Bincode (Option Value)] {s t : RowSession}

theorem mem_rows_iff (h : s.Numbered) {label : LabelId} {row : UInt32} :
    (label, row) ∈ s.given ↔ row.toNat < nextRow s.store.schemas label := by
  have hmem : (label, row) ∈ s.given ↔ row ∈ s.rows label := by
    simp [rows]
  rw [hmem, h.rows label, List.mem_map]
  constructor
  · rintro ⟨i, hi, rfl⟩
    have hlt := List.mem_range.mp hi
    have hsize : i < UInt32.size :=
      Nat.lt_trans hlt ((s.store.schemas.get label).getD 0).toNat_lt
    rw [UInt32.toNat_ofNat_of_lt' hsize]
    exact hlt
  · exact fun hlt => ⟨row.toNat, List.mem_range.mpr hlt, UInt32.ofNat_toNat⟩

/-- A row more. -/
theorem Numbered.alloc (h : s.Numbered) {label : LabelId} (hstore : t.store.Counted)
    (hschemas : t.store.schemas = (s.store.allocRow label).2.schemas)
    (hgiven : t.given = s.given ++ [(label, (s.store.allocRow label).1)])
    (hnext : nextRow s.store.schemas label + 1 < 2 ^ 32) : t.Numbered := by
  refine ⟨hstore, fun label' => ?_⟩
  rw [rows_append hgiven, hschemas]
  show _ = (List.range (nextRow (s.store.schemas.put label _) label')).map UInt32.ofNat
  rw [nextRow_put]
  split
  · rename_i hl
    have hrow : (s.store.allocRow label).1 = UInt32.ofNat (nextRow s.store.schemas label) :=
      UInt32.ofNat_toNat.symm
    rw [toNat_add_one hnext, List.range_succ, List.map_append, List.map_singleton, h.rows, hl,
      hrow]
    rfl
  · exact h.rows label'

/-- How many rows of a label were returned. -/
theorem Numbered.length_rows (h : s.Numbered) (label : LabelId) :
    (s.rows label).length = nextRow s.store.schemas label := by
  rw [h.rows, List.length_map, List.length_range]

omit [Bincode (Option Value)] in
theorem length_rows_le (s : RowSession) (label : LabelId) :
    (s.rows label).length ≤ s.given.length := by
  rw [rows, List.length_map]
  exact List.length_filter_le _ _

/-- Every step keeps the rows that were returned. -/
theorem rows_le {call : RowCall} (hs : s.step call = some t) (label : LabelId) :
    (s.rows label).length ≤ (t.rows label).length := by
  have hmore : ∀ more : List (LabelId × UInt32), t.given = s.given ++ more →
      (s.rows label).length ≤ (t.rows label).length := by
    intro more hgiven
    rw [rows, rows, hgiven, List.filter_append, List.map_append, List.length_append]
    exact Nat.le_add_right _ _
  cases call with
  | allocRow label' =>
    obtain rfl := Option.some.inj hs
    exact hmore _ rfl
  | insertRow label' props =>
    obtain rfl := Option.some.inj hs
    exact hmore _ rfl
  | insertProp label' prop row value =>
    rw [step] at hs
    split at hs
    · obtain rfl := Option.some.inj hs
      exact Nat.le_refl _
    · exact absurd hs (by simp)
  | setProp label' prop row value =>
    rw [step] at hs
    split at hs
    · obtain rfl := Option.some.inj hs
      exact Nat.le_refl _
    · exact absurd hs (by simp)
  | reopen =>
    rw [step] at hs
    split at hs
    · obtain rfl := Option.some.inj hs
      exact Nat.le_refl _
    · exact absurd hs (by simp)

/-- The rows behind a step that returns one. -/
theorem Numbered.next_lt (h : s.Numbered) {label : LabelId} {row : UInt32}
    (hgiven : t.given = s.given ++ [(label, row)]) (hcount : (t.rows label).length < 2 ^ 32) :
    nextRow s.store.schemas label + 1 < 2 ^ 32 := by
  rw [rows_append hgiven, if_pos rfl, List.length_append, h.length_rows,
    List.length_singleton] at hcount
  exact hcount

theorem Numbered.step (h : s.Numbered) {call : RowCall} (hkept : s.Kept call)
    (hs : s.step call = some t) (hcount : ∀ label, (t.rows label).length < 2 ^ 32) :
    t.Numbered := by
  cases call with
  | allocRow label =>
    obtain rfl := Option.some.inj hs
    have hnext := h.next_lt rfl (hcount label)
    exact h.alloc (h.store.allocRow hnext) rfl rfl hnext
  | insertRow label props =>
    obtain rfl := Option.some.inj hs
    have hnext := h.next_lt rfl (hcount label)
    have hrow : (s.store.allocRow label).1.toNat
        < nextRow (s.store.allocRow label).2.schemas label := by
      show nextRow s.store.schemas label < nextRow (s.store.schemas.put label _) label
      rw [nextRow_put, if_pos rfl, toNat_add_one hnext]
      exact Nat.lt_succ_self _
    obtain ⟨hcounted, hschemas⟩ :=
      PropStore.Counted.foldl_insertProp (h.store.allocRow hnext) hkept hrow
    exact h.alloc hcounted hschemas rfl hnext
  | insertProp label prop row value =>
    rw [RowSession.step] at hs
    split at hs
    · rename_i hgiven
      obtain rfl := Option.some.inj hs
      refine ⟨h.store.insertProp value hkept ((mem_rows_iff h).mp hgiven), fun label' => ?_⟩
      rw [PropStore.insertProp_schemas]
      exact h.rows label'
    · exact absurd hs (by simp)
  | setProp label prop row value =>
    rw [RowSession.step] at hs
    split at hs
    · rename_i hgiven
      obtain rfl := Option.some.inj hs
      refine ⟨h.store.setProp value hkept ((mem_rows_iff h).mp hgiven), fun label' => ?_⟩
      rw [PropStore.setProp_schemas]
      exact h.rows label'
    · exact absurd hs (by simp)
  | reopen =>
    obtain ⟨hfit, hlast⟩ := hkept
    obtain ⟨store, hopen, hcol, hcounted, hnext⟩ := h.store.reopen hfit
    rw [RowSession.step, hopen, Option.some.injEq] at hs
    subst hs
    refine ⟨hcounted, fun label => ?_⟩
    have hsame : nextRow store.schemas label = nextRow s.store.schemas label := by
      apply Nat.le_antisymm
      · by_contra hlt
        exact Nat.lt_irrefl _ (h.store.below label _ ((hnext label _).mp (Nat.lt_of_not_le hlt)))
      · by_cases hzero : nextRow s.store.schemas label = 0
        · rw [hzero]
          exact Nat.zero_le _
        · exact Nat.le_of_pred_lt ((hnext label _).mpr (hlast label hzero))
    rw [hsame]
    exact h.rows label

theorem start_numbered : start.Numbered := by
  obtain ⟨s, hs, hlog, hmir, hhist⟩ := PropStore.open_eq LogHolds.empty
  obtain rfl : PropStore.fresh = s := Except.ok.inj (PropStore.open_nil.symm.trans hs)
  refine ⟨⟨⟨[], hlog, hmir, fun r hr => absurd hr List.not_mem_nil, ?_⟩, fun label i hcov => ?_⟩,
    fun _ => rfl⟩
  · rw [show start.store.history = [] from hhist]
    exact PropReplay.exact_empty
  · exact (PropReplay.exact_empty label i).mpr hcov

/-- Rows that were returned stay counted, so what bounds them at the end of a run bounds them
all along. -/
theorem run_rows_le (calls : List RowCall) : ∀ {s t : RowSession},
    run step s calls = some t → ∀ label, (s.rows label).length ≤ (t.rows label).length := by
  induction calls with
  | nil =>
    intro s t h label
    obtain rfl := Option.some.inj h
    exact Nat.le_refl _
  | cons call calls ih =>
    intro s t h label
    obtain ⟨u, hu, hrest⟩ := run_cons_inv h
    exact Nat.le_trans (rows_le hu label) (ih hrest label)

theorem run_numbered (calls : List RowCall) : ∀ {s t : RowSession}, s.Numbered →
    Guarded step Kept s calls → run step s calls = some t →
    (∀ label, (t.rows label).length < 2 ^ 32) → t.Numbered := by
  induction calls with
  | nil =>
    intro s t h _ hrun _
    obtain rfl := Option.some.inj hrun
    exact h
  | cons call calls ih =>
    intro s t h hcalls hrun hcount
    obtain ⟨u, hu, hrest⟩ := run_cons_inv hrun
    have hcount' : ∀ label, (u.rows label).length < 2 ^ 32 := fun label =>
      Nat.lt_of_le_of_lt (run_rows_le calls hrest label) (hcount label)
    exact ih (h.step hcalls.1 hu hcount') (hcalls.2 u hu) hrest hcount

/-- No row number was returned twice. -/
theorem Numbered.nodup (h : s.Numbered) (label : LabelId) : (s.rows label).Nodup := by
  rw [h.rows]
  refine List.Nodup.map_on (fun i hi j hj heq => ?_) List.nodup_range
  have hlt : ∀ i ∈ List.range (nextRow s.store.schemas label),
      (UInt32.ofNat i).toNat = i := fun i hi =>
    UInt32.toNat_ofNat_of_lt' (Nat.lt_trans (List.mem_range.mp hi)
      ((s.store.schemas.get label).getD 0).toNat_lt)
  rw [← hlt i hi, ← hlt j hj, heq]

/-- Where the last row of a label has no cell, a restart hands a row out again. -/
theorem Numbered.again (h : s.Numbered) (hfit : ∀ r ∈ s.store.history, r.Fits) {label : LabelId}
    (hnext : nextRow s.store.schemas label ≠ 0)
    (hlast : ¬ s.store.columns.Covers label (nextRow s.store.schemas label - 1)) :
    ∃ t, s.step .reopen = some t ∧ (label, (t.store.allocRow label).1) ∈ s.given := by
  obtain ⟨store, hopen, -, -, hiff⟩ := h.store.reopen hfit
  refine ⟨{ s with store }, by rw [RowSession.step, hopen], (mem_rows_iff h).mpr ?_⟩
  show nextRow store.schemas label < nextRow s.store.schemas label
  by_contra hle
  refine hlast ((hiff label _).mp ?_)
  exact Nat.lt_of_lt_of_le (Nat.sub_lt (Nat.pos_of_ne_zero hnext) Nat.one_pos)
    (Nat.le_of_not_lt hle)

end RowSession

/-- **Row numbers stay unique** in the runs that close the store over logged rows, and where it is
closed over another a row that was returned is handed out again. -/
theorem row_numbers_unique [Bincode (Option Value)] {calls : List RowCall} {s : RowSession}
    (hcalls : Guarded RowSession.step RowSession.Kept RowSession.start calls)
    (hrun : run RowSession.step RowSession.start calls = some s)
    (hcount : ∀ label, (s.rows label).length < 2 ^ 32) :
    (∀ label, (s.rows label).Nodup) ∧
    ((∀ r ∈ s.store.history, r.Fits) → ¬ s.LastRowsWritten → ∃ label t,
      s.step .reopen = some t ∧ (label, (t.store.allocRow label).1) ∈ s.given) := by
  have h := RowSession.run_numbered calls RowSession.start_numbered hcalls hrun hcount
  refine ⟨h.nodup, fun hfit hlast => ?_⟩
  obtain ⟨label, hcov⟩ := not_forall.mp hlast
  obtain ⟨hnext, hcov⟩ := Classical.not_imp.mp hcov
  exact ⟨label, h.again hfit hnext hcov⟩

/-- A row without a cell, and the restart. -/
def emptyRow : List RowCall := [.allocRow 0, .reopen, .allocRow 0]

theorem row_returned_twice :
    ¬ ∀ (calls : List RowCall) (s : RowSession),
      run RowSession.step RowSession.start calls = some s →
      (∀ label, (s.rows label).length < 2 ^ 32) → ∀ label, (s.rows label).Nodup := by
  intro h
  have hnodup := h emptyRow ⟨_, [(0, 0), (0, 0)]⟩ rfl
    (fun label => Nat.lt_of_le_of_lt (RowSession.length_rows_le _ label) (by decide)) 0
  exact absurd hnodup (by decide)

/-- Two rows, the second with a cell, and a third one behind the restart. -/
def writtenRows : List RowCall :=
  [.allocRow 0, .insertRow 0 [("name", .string "Bob")], .reopen, .allocRow 0]

/-- Where the store is closed. -/
def twoRows : RowSession :=
  { store := ((PropStore.fresh.allocRow 0).2.insertRow 0 [("name", .string "Bob")]).2
    given := [(0, 0), (0, 1)] }

theorem twoRows_written : twoRows.LastRowsWritten := by
  intro label hnext
  by_cases hl : label = 0
  · subst hl
    exact ⟨"name", _, rfl, by decide⟩
  · have hschemas : twoRows.store.schemas = ((∅ : FiniteMap LabelId UInt32).put 0 1).put 0 2 := rfl
    rw [hschemas, nextRow_put, if_neg hl, nextRow_put, if_neg hl] at hnext
    exact absurd rfl hnext

theorem row_numbers_unique_three :
    ∃ s, run RowSession.step RowSession.start writtenRows = some s ∧ s.rows 0 = [0, 1, 2] ∧
      ∀ label, (s.rows label).Nodup := by
  have hguard : Guarded RowSession.step RowSession.Kept RowSession.start writtenRows := by
    refine Guarded.cons rfl trivial (Guarded.cons rfl ?_ (Guarded.cons rfl ?_
      (Guarded.cons rfl trivial trivial)))
    · exact show ∀ p ∈ [("name", Value.string "Bob")], _ by decide
    · exact ⟨show ∀ r ∈ twoRows.store.history, r.Fits by decide +kernel, twoRows_written⟩
  refine ⟨_, rfl, rfl, (row_numbers_unique hguard rfl fun label => ?_).1⟩
  exact Nat.lt_of_le_of_lt (RowSession.length_rows_le _ label) (by decide)

end LightGraph
