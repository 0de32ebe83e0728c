import LightGraph.Lib.Threads
import LightGraph.Storage.PropStore

/-!
# The property store under concurrency

A call that writes a cell is two steps: the column is changed under its lock, which is dropped,
and the cell's record is sent. Between the two another thread can write the same cell, and send.

The updates are counted through, and a record carries the number of the update it is of; both are
kept to tell in what order things happened, and no step looks at them.
-/

set_option autoImplicit false

namespace LightGraph

open Lib

/-- A row of a column. -/
abbrev PropCell := LabelId × String × UInt32

def PropStore.getCell (s : PropStore) (c : PropCell) : Option Value := s.getProp c.1 c.2.1 c.2.2

/-- Where a thread stands in a call of `insert_prop` or `set_prop`. -/
inductive CellPc
  | idle
  /-- behind the `n`-th update, before `wal_send_cell` -/
  | send (n : Nat) (label : LabelId) (prop : String) (row : UInt32) (value : Option Value)

inductive CellMove
  | insertProp (label : LabelId) (prop : String) (row : UInt32) (value : Option Value)
  | setProp (label : LabelId) (prop : String) (row : UInt32) (value : Option Value)
  | send

/-- The store, the updates in the order they were made, and the order their records were sent. -/
structure SharedCells where
  store : PropStore
  updated : List (PropCell × Option Value)
  sent : List (PropCell × Nat)

namespace SharedCells

/-- The columns with a cell written, and the writer on its way to `wal_send_cell`. -/
def update (sh : SharedCells) (columns : Columns) (label : LabelId) (prop : String) (row : UInt32)
    (value : Option Value) : SharedCells × CellPc :=
  ({ sh with
      store := { sh.store with columns }
      updated := sh.updated ++ [((label, prop, row), value)] },
    .send sh.updated.length label prop row value)

variable [Bincode (Option Value)]

/-- One step of one thread. -/
def exec (sh : SharedCells) : CellPc → CellMove → Option (SharedCells × CellPc)
  | .idle, .insertProp label prop row value =>
    some (sh.update (sh.store.columns.putCell label prop row value) label prop row value)
  | .idle, .setProp label prop row value =>
    match sh.store.columns.get (label, prop) with
    | none => some (sh, .idle)
    | some col =>
      let (col, ok) := col.set row value
      let columns := sh.store.columns.put (label, prop) col
      if ok then some (sh.update columns label prop row value)
      else some ({ sh with store := { sh.store with columns } }, .idle)
  | .send n label prop row value, .send =>
    some ({ sh with
        store := sh.store.walSendCell label prop row value
        sent := sh.sent ++ [((label, prop, row), n)] }, .idle)
  | _, _ => none

/-- Any number of threads on one store. -/
abbrev step :
    Threads SharedCells CellPc → Nat × CellMove → Option (Threads SharedCells CellPc) :=
  Threads.step exec

end SharedCells

/-- The threads before their first call. -/
def cellThreads (store : PropStore) (threads : Nat) : Threads SharedCells CellPc :=
  { shared := { store, updated := [], sent := [] }, threads := List.replicate threads .idle }

end LightGraph
