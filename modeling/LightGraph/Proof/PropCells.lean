import LightGraph.Proof.DatabaseLogs
import LightGraph.Storage.Bincode

/-!
# Property cells and a restart

`wal_send_cell` packs a cell by hand and the closure of `PropStore::open` unpacks it; the two
agree on every name whose length fits the one byte it is given (`onRecord_cellRecord`). So the
cells survive a restart as long as no longer name is ever logged — which `set_prop` does only
where it finds its row. A name of 256 bytes is announced as empty, and its record is replayed
as something else or not at all.
-/

set_option autoImplicit false

namespace LightGraph

open Lib

/-! ## What is logged -/

/-- The row is there: what `set_prop` asks before it writes. -/
def PropStore.HasRow (s : PropStore) (label : LabelId) (prop : String) (row : UInt32) : Prop :=
  ∃ col, s.columns.get (label, prop) = some col ∧ row.toNat < col.values.length

/-- The call logs no cell whose name's length does not fit its byte. -/
def PropOp.LogsShort (s : PropStore) : PropOp → Prop
  | .insertProp _ prop _ _ => (utf8Bytes prop).length < 256
  | .setProp label prop row _ => s.HasRow label prop row → (utf8Bytes prop).length < 256
  | .insertRow _ props => ∀ p ∈ props, (utf8Bytes p.1).length < 256

namespace PropertyColumn

/-- A column long enough is not extended. -/
theorem put_of_lt {col : PropertyColumn} {row : UInt32} (h : row.toNat < col.values.length)
    (val : Option Value) : col.put row val = (col.set row val).1 := by
  have hzero : row.toNat + 1 - col.values.length = 0 := Nat.sub_eq_zero_of_le h
  have hext : col.extendTo (row.toNat + 1) = col := by
    rw [extendTo, hzero, List.replicate_zero, List.append_nil]
  rw [put, hext]

end PropertyColumn

namespace PropStore

/-- Two stores with the same columns answer every read alike. -/
theorem getProp_congr {s t : PropStore} (h : s.columns = t.columns) (label : LabelId)
    (prop : String) (row : UInt32) : s.getProp label prop row = t.getProp label prop row := by
  rw [getProp, getProp, h]

/-- Only the columns and the WAL count. -/
theorem same_of_fields {s t : PropStore} {log : List LogRecord} [Bincode (Option Value)]
    (hcol : t.columns = s.columns) (hwal : t.wal = s.wal) (hlog : s.Logged log)
    (hmir : s.Mirrored log) : t.Logged log ∧ t.Mirrored log := by
  have hhist : t.history = s.history := by
    rw [history, sent, hwal]
    rfl
  exact ⟨hlog.of_wal hwal, by rw [Mirrored, hcol, hhist]; exact hmir⟩

variable [Bincode (Option Value)]

/-- `set_prop` on a row that is there writes and logs as `insert_prop` does. -/
theorem setProp_of_hasRow {s : PropStore} {label : LabelId} {prop : String} {row : UInt32}
    (h : s.HasRow label prop row) (value : Option Value) :
    s.setProp label prop row value = (s.insertProp label prop row value, true) := by
  obtain ⟨col, hcol, hrow⟩ := h
  have hput : s.columns.put (label, prop) (col.set row value).1
      = s.columns.putCell label prop row value := by
    rw [Columns.putCell, hcol, Option.getD_some, PropertyColumn.put_of_lt hrow]
  have hok : (col.set row value).2 = true := by
    rw [PropertyColumn.set, if_pos hrow]
  unfold setProp insertProp
  rw [hcol]
  simp only [hok, if_true, hput]

/-- Elsewhere it leaves the columns as they are and logs nothing. -/
theorem setProp_of_not_hasRow {s : PropStore} {label : LabelId} {prop : String} {row : UInt32}
    (h : ¬ s.HasRow label prop row) (value : Option Value) :
    (s.setProp label prop row value).1.columns = s.columns ∧
    (s.setProp label prop row value).1.wal = s.wal := by
  unfold setProp
  cases hcol : s.columns.get (label, prop) with
  | none => exact ⟨rfl, rfl⟩
  | some col =>
    have hrow : ¬ row.toNat < col.values.length := fun hlt => h ⟨col, hcol, hlt⟩
    have hset : col.set row value = (col, false) := by
      rw [PropertyColumn.set, if_neg hrow]
    simp only [hset, Bool.false_eq_true, if_false]
    refine ⟨FiniteMap.ext fun k => ?_, trivial⟩
    rw [FiniteMap.get_put]
    split
    · rename_i hk
      rw [hk, hcol]
    · rfl

/-- What was inserted is read. -/
theorem getProp_insertProp (s : PropStore) (label : LabelId) (prop : String) (row : UInt32)
    (value : Option Value) :
    (s.insertProp label prop row value).getProp label prop row = value := by
  rw [getProp, insertProp_columns, Columns.putCell, FiniteMap.get_put_self]
  dsimp only
  rw [PropertyColumn.get, PropertyColumn.getElem?_put, if_pos rfl, Option.getD_some]

/-! ## One call and a run of calls -/

/-- The loop of `insert_row`. -/
theorem foldl_insertProp_mirrored {log : List LogRecord} (label : LabelId) (row : UInt32) :
    ∀ {props : List (String × Value)} {s : PropStore}, s.Logged log → s.Mirrored log →
    (∀ p ∈ props, (utf8Bytes p.1).length < 256) →
    (props.foldl (fun s p => s.insertProp label p.1 row (some p.2)) s).Logged log ∧
    (props.foldl (fun s p => s.insertProp label p.1 row (some p.2)) s).Mirrored log := by
  intro props
  induction props with
  | nil => exact fun hlog hmir _ => ⟨hlog, hmir⟩
  | cons p props ih =>
    intro s hlog hmir hshort
    exact ih (hlog.insertProp label p.1 row _)
      (hmir.insertProp hlog _ (hshort p List.mem_cons_self))
      fun q hq => hshort q (List.mem_cons_of_mem p hq)

/-- **A call that logs short names only** keeps the columns what the log replays to. -/
theorem perform_mirrored {s : PropStore} {log : List LogRecord} (hlog : s.Logged log)
    (hmir : s.Mirrored log) {op : PropOp} (hop : op.LogsShort s) :
    (s.perform op).Logged log ∧ (s.perform op).Mirrored log := by
  cases op with
  | insertProp label prop row value =>
    exact ⟨hlog.insertProp label prop row value, hmir.insertProp hlog value hop⟩
  | setProp label prop row value =>
    by_cases hrow : s.HasRow label prop row
    · have heq : s.perform (.setProp label prop row value) = s.insertProp label prop row value :=
        congrArg Prod.fst (setProp_of_hasRow hrow value)
      rw [heq]
      exact ⟨hlog.insertProp label prop row value, hmir.insertProp hlog value (hop hrow)⟩
    · obtain ⟨hcol, hwal⟩ := setProp_of_not_hasRow hrow value
      exact same_of_fields hcol hwal hlog hmir
  | insertRow label props =>
    -- the row is taken from the schema, which no cell is read from
    obtain ⟨hlog', hmir'⟩ := same_of_fields (s := s) (t := (s.allocRow label).2) rfl rfl hlog hmir
    exact foldl_insertProp_mirrored label _ hlog' hmir' hop

/-- A call as a step: it is always enabled. -/
def step (s : PropStore) (op : PropOp) : Option PropStore := some (s.perform op)

theorem run_step (ops : List PropOp) : ∀ s : PropStore,
    run step s ops = some (ops.foldl perform s) := by
  induction ops with
  | nil => exact fun _ => rfl
  | cons op ops ih => exact fun s => ih (s.perform op)

theorem run_mirrored {s t : PropStore} {log : List LogRecord} {ops : List PropOp}
    (hlog : s.Logged log) (hmir : s.Mirrored log)
    (hops : Guarded step (fun s op => op.LogsShort s) s ops)
    (hrun : run step s ops = some t) : t.Logged log ∧ t.Mirrored log := by
  refine guarded_invariant (I := fun s : PropStore => s.Logged log ∧ s.Mirrored log) ?_
    ⟨hlog, hmir⟩ hops hrun
  rintro s op t ⟨hlog, hmir⟩ hop hstep
  rw [step, Option.some.injEq] at hstep
  exact hstep ▸ perform_mirrored hlog hmir hop

end PropStore

/-! ## The restart -/

/-- Reading the flushed log back gives every cell's value. -/
def PropStore.CellsSurvive [Bincode (Option Value)] (s : PropStore) : Prop :=
  ∃ t, PropStore.open s.file = .ok t ∧
    ∀ label prop row, t.getProp label prop row = s.getProp label prop row

/-- **Property cells survive a restart** after every run whose calls log short names only. -/
theorem cells_survive_restart [Bincode (Option Value)] {file : Bytes} {log : List LogRecord}
    (hfile : LogHolds file log) {s₀ s : PropStore} (hopen : PropStore.open file = .ok s₀)
    {ops : List PropOp} (hops : Guarded PropStore.step (fun s op => op.LogsShort s) s₀ ops)
    (hrun : run PropStore.step s₀ ops = some s) (hfit : ∀ r ∈ s.history, r.Fits) :
    s.CellsSurvive := by
  obtain ⟨s', hs', hlog, hmir, -⟩ := PropStore.open_eq hfile
  rw [hs', Except.ok.injEq] at hopen
  subst hopen
  obtain ⟨hlog', hmir'⟩ := PropStore.run_mirrored hlog hmir hops hrun
  have hall : ∀ r ∈ log ++ s.history, r.Fits := List.forall_mem_append.mpr ⟨hfile.fits, hfit⟩
  obtain ⟨t, ht, hcol⟩ := PropStore.reopen_columns hlog' hall
  exact ⟨t, ht, PropStore.getProp_congr (hcol.trans hmir'.symm)⟩

/-- The store an empty directory is opened to. -/
def PropStore.fresh : PropStore :=
  { PropStore.new with wal := some { opened := magic, sent := [] } }

theorem PropStore.open_nil [Bincode (Option Value)] : PropStore.open [] = .ok PropStore.fresh := rfl

/-- A name of 256 bytes, one more than a byte can tell. -/
def longName : String := String.ofList (List.replicate 256 'a')

/-- The store after a cell has been written under it. -/
def PropStore.afterLong : PropStore := PropStore.fresh.insertProp 0 longName 0 (some (.int 5))

theorem utf8Bytes_replicate (n : Nat) :
    utf8Bytes (String.ofList (List.replicate n 'a')) = List.replicate n 0x61 := by
  have hchar : String.utf8EncodeChar 'a' = [0x61] := by decide
  rw [utf8Bytes, String.toList_ofList, List.flatMap_replicate, hchar,
    List.flatten_replicate_singleton]

theorem utf8Bytes_longName : utf8Bytes longName = List.replicate 256 0x61 :=
  utf8Bytes_replicate 256

/-- A record that announces an empty name, with no value behind the row. -/
theorem PropReplay.onRecord_of_undecodable [Bincode (Option Value)] (st : PropReplay)
    {r : LogRecord} (hname : ((r.payload.drop 4).headD 0).toNat = 0)
    (hvalue : (Bincode.deserialize (r.payload.drop 9) : Option (Option Value)) = none) :
    st.onRecord r = st := by
  unfold PropReplay.onRecord
  split
  · simp only [hname]
    split
    · rfl
    · rw [hvalue]
  · rfl

/-- The record of the cell: the name's bytes are read as a row and a value, and are none. -/
theorem onRecord_longName (st : PropReplay) :
    st.onRecord (PropStore.cellRecord 0 longName 0 (some (.int 5))) = st := by
  have hpayload : (PropStore.cellRecord 0 longName 0 (some (.int 5))).payload
      = leBytes 4 0 ++ [UInt8.ofNat 256] ++ List.replicate 256 0x61 ++ leBytes 4 0
        ++ Bincode.bytes (some (Value.int 5)) := by
    rw [PropStore.cellRecord, cellHeader, utf8Bytes_longName, List.length_replicate]
    rfl
  apply PropReplay.onRecord_of_undecodable
  · rw [hpayload]
    decide +kernel
  · rw [hpayload]
    exact Option.isNone_iff_eq_none.mp (by decide +kernel)

/-- Its cell is not read back. -/
theorem long_name_lost :
    ¬ ∀ (file : Bytes) (log : List LogRecord) (s₀ s : PropStore) (ops : List PropOp),
      LogHolds file log → PropStore.open file = .ok s₀ → run PropStore.step s₀ ops = some s →
      (∀ r ∈ s.history, r.Fits) → s.CellsSurvive := by
  intro h
  have hhist : PropStore.afterLong.history
      = [PropStore.cellRecord 0 longName 0 (some (.int 5))] :=
    PropStore.insertProp_history (s := PropStore.fresh) rfl 0 longName 0 (some (.int 5))
  have hfit : ∀ r ∈ PropStore.afterLong.history, r.Fits := by
    intro r hr
    rw [hhist, List.mem_singleton] at hr
    subst hr
    rw [LogRecord.Fits, PropStore.cellRecord, cellHeader, utf8Bytes_longName]
    decide +kernel
  obtain ⟨t, ht, hsame⟩ := h [] [] _ PropStore.afterLong
    [.insertProp 0 longName 0 (some (.int 5))] LogHolds.empty PropStore.open_nil rfl hfit
  obtain ⟨s₀, hs₀, hlog, -⟩ := PropStore.open_eq LogHolds.empty
  obtain rfl : PropStore.fresh = s₀ := Except.ok.inj (PropStore.open_nil.symm.trans hs₀)
  obtain ⟨t', ht', hcol⟩ := PropStore.reopen_columns
    (hlog.insertProp 0 longName 0 (some (.int 5))) hfit
  obtain rfl : t' = t := Except.ok.inj (ht'.symm.trans ht)
  have hempty : t'.columns = ∅ := by
    have hcol' : t'.columns = (PropStore.afterLong.history.foldl PropReplay.onRecord
        PropReplay.empty).columns := hcol
    rw [hcol', hhist, List.foldl_cons, List.foldl_nil, onRecord_longName]
    rfl
  have hlost : t'.getProp 0 longName 0 = none := by
    rw [PropStore.getProp, hempty, FiniteMap.get_empty]
  rw [hsame, PropStore.afterLong, PropStore.getProp_insertProp] at hlost
  exact absurd hlost (by simp)

/-- A cell is written and overwritten, and a long name is set that is not there. -/
def someCells : List PropOp :=
  [.insertProp 0 "age" 0 (some (.int 30)), .setProp 0 "age" 0 none, .setProp 0 longName 0 none,
    .insertRow 0 [("name", .string "Bob")]]

theorem cells_survive_restart_four : (someCells.foldl PropStore.perform .fresh).CellsSurvive := by
  refine cells_survive_restart LogHolds.empty PropStore.open_nil ?_
    (PropStore.run_step someCells _) (by decide +kernel)
  refine Guarded.cons rfl (show (utf8Bytes "age").length < 256 by decide) ?_
  refine Guarded.cons rfl (fun _ => show (utf8Bytes "age").length < 256 by decide) ?_
  refine Guarded.cons rfl (fun hrow => ?_) ?_
  · obtain ⟨col, hcol, -⟩ := hrow
    have hnone : (((PropStore.fresh.perform (.insertProp 0 "age" 0 (some (.int 30)))).perform
        (.setProp 0 "age" 0 none)).columns.get (0, longName)).isNone = true := by decide +kernel
    rw [Option.isNone_iff_eq_none.mp hnone] at hcol
    exact absurd hcol (by simp)
  · exact Guarded.cons rfl (show ∀ p ∈ [("name", Value.string "Bob")], _ by decide) trivial

end LightGraph
