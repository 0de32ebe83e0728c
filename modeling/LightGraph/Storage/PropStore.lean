import LightGraph.Lib.Utf8
import LightGraph.Storage.RecordStore

/-!
# The property store

`prop_store.rs`. One column for each label and property name; a row is the index of a value in
the column, and a column grows when a row behind its end is written. A write of one cell is
logged as an INSERT record under the label whose payload names the cell.

The name's length is one byte of that payload, cut from a `usize`: a name of 256 bytes or more
is announced as shorter than it is.
-/

set_option autoImplicit false

namespace LightGraph

open Lib

/-- The values of one property across the rows of a label. -/
structure PropertyColumn where
  values : List (Option Value)

namespace PropertyColumn

def new : PropertyColumn := { values := [] }

def get (col : PropertyColumn) (row : UInt32) : Option (Option Value) := col.values[row.toNat]?

def set (col : PropertyColumn) (row : UInt32) (val : Option Value) : PropertyColumn × Bool :=
  if row.toNat < col.values.length then ({ values := col.values.set row.toNat val }, true)
  else (col, false)

def extendTo (col : PropertyColumn) (minLen : Nat) : PropertyColumn :=
  { values := col.values ++ List.replicate (minLen - col.values.length) none }

/-- `extend_to` and `set`, as `insert_prop` and the replay closure call them. -/
def put (col : PropertyColumn) (row : UInt32) (val : Option Value) : PropertyColumn :=
  ((col.extendTo (row.toNat + 1)).set row val).1

end PropertyColumn

abbrev Columns := FiniteMap (LabelId × String) PropertyColumn

/-- `columns.entry(key).or_insert_with(PropertyColumn::new)`, then the write. -/
def Columns.putCell (columns : Columns) (label : LabelId) (prop : String) (row : UInt32)
    (val : Option Value) : Columns :=
  columns.put (label, prop) (((columns.get (label, prop)).getD PropertyColumn.new).put row val)

structure PropStore where
  columns : Columns
  /-- `next_row` of each label -/
  schemas : FiniteMap LabelId UInt32
  wal : Option WalLog

/-- The payload of a cell's record, up to the value. -/
def cellHeader (label : LabelId) (propName : String) (row : UInt32) : Bytes :=
  leBytes 4 label.toNat ++ [UInt8.ofNat (utf8Bytes propName).length] ++ utf8Bytes propName
    ++ leBytes 4 row.toNat

namespace PropStore

/-- A store without a log. -/
def new : PropStore := { columns := ∅, schemas := ∅, wal := none }

/-- The commands sent to the WAL since the store was opened. -/
def sent (s : PropStore) : List WalCmd := (s.wal.map WalLog.sent).getD []

/-- The log on disk once it has been flushed. -/
def file (s : PropStore) : Bytes := (s.wal.map WalLog.file).getD []

def getProp (s : PropStore) (label : LabelId) (prop : String) (row : UInt32) : Option Value :=
  match s.columns.get (label, prop) with
  | some col => (col.get row).getD none
  | none => none

/-- Every property of a row, in the order in which the columns are iterated. -/
def getRow (order : FiniteMap.IterOrder (LabelId × String) PropertyColumn) (s : PropStore)
    (label : LabelId) (row : UInt32) : List (String × Value) :=
  (order.entries s.columns).filterMap fun (key, col) =>
    if key.1 = label then
      match col.get row with
      | some (some val) => some (key.2, val)
      | _ => none
    else none

/-- `alloc_row`. -/
def allocRow (s : PropStore) (label : LabelId) : UInt32 × PropStore :=
  let row := (s.schemas.get label).getD 0
  (row, { s with schemas := s.schemas.put label (row + 1) })

def rowCount (s : PropStore) (label : LabelId) : UInt32 := (s.schemas.get label).getD 0

section Persistent
variable [Bincode (Option Value)]

/-- Send one cell to the WAL. -/
def walSendCell (s : PropStore) (label : LabelId) (propName : String) (row : UInt32)
    (value : Option Value) : PropStore :=
  match s.wal with
  | none => s
  | some wal =>
    match Bincode.serialize value with
    | none => s
    | some valData =>
      let payload := cellHeader label propName row ++ valData
      { s with wal := some (wal.send (.insert label.toUInt64 payload)) }

def insertProp (s : PropStore) (label : LabelId) (prop : String) (row : UInt32)
    (value : Option Value) : PropStore :=
  { s with columns := s.columns.putCell label prop row value }.walSendCell label prop row value

/-- `set_prop`: no new column and no new row. -/
def setProp (s : PropStore) (label : LabelId) (prop : String) (row : UInt32)
    (value : Option Value) : PropStore × Bool :=
  match s.columns.get (label, prop) with
  | none => (s, false)
  | some col =>
    let (col, ok) := col.set row value
    let s := { s with columns := s.columns.put (label, prop) col }
    if ok then (s.walSendCell label prop row value, true) else (s, false)

def insertRow (s : PropStore) (label : LabelId) (props : List (String × Value)) :
    UInt32 × PropStore :=
  let (row, s) := s.allocRow label
  (row, props.foldl (fun s p => s.insertProp label p.1 row (some p.2)) s)

end Persistent
end PropStore

/-- One call that writes cells. -/
inductive PropOp
  | insertProp (label : LabelId) (prop : String) (row : UInt32) (value : Option Value)
  | setProp (label : LabelId) (prop : String) (row : UInt32) (value : Option Value)
  | insertRow (label : LabelId) (props : List (String × Value))

def PropStore.perform [Bincode (Option Value)] (s : PropStore) : PropOp → PropStore
  | .insertProp label prop row value => s.insertProp label prop row value
  | .setProp label prop row value => (s.setProp label prop row value).1
  | .insertRow label props => (s.insertRow label props).2

/-! ## Recovery -/

/-- What the replay closure of `PropStore::open` has built so far. -/
structure PropReplay where
  columns : Columns
  schemas : FiniteMap LabelId UInt32

namespace PropReplay

def empty : PropReplay := { columns := ∅, schemas := ∅ }

/-- The replay closure of `PropStore::open`. -/
def onRecord [Bincode (Option Value)] (st : PropReplay) (r : LogRecord) : PropReplay :=
  if r.opcode = 1 ∧ r.payload.length ≥ 10 then
    let label := UInt32.ofNat (leNat (r.payload.take 4))
    let nameLen := ((r.payload.drop 4).headD 0).toNat
    let headerEnd := 5 + nameLen
    if r.payload.length < headerEnd + 4 then st
    else
      let propName := fromUtf8Lossy ((r.payload.take headerEnd).drop 5)
      let row := UInt32.ofNat (leNat ((r.payload.drop headerEnd).take 4))
      let valData := r.payload.drop (headerEnd + 4)
      match (Bincode.deserialize valData : Option (Option Value)) with
      | none => st
      | some value =>
        { columns := st.columns.putCell label propName row value
          schemas := st.schemas.put label (max ((st.schemas.get label).getD 0) (row + 1)) }
  else st

end PropReplay

def PropStore.open [Bincode (Option Value)] (file : Bytes) : Except IoError PropStore :=
  match replayIfAny PropReplay.onRecord file PropReplay.empty with
  | .error e => .error e
  | .ok st =>
    .ok { columns := st.columns
          schemas := st.schemas
          wal := some { opened := spawnFile file, sent := [] } }

end LightGraph
