import LightGraph.Storage.PropThreads

/-!
# Rows under concurrency

`insert_row` takes a row from the counter of its label and then calls `insert_prop` for each
property, so other threads run between any two of its cells. The counter is under the lock of its
map entry, and a row is taken in one step; a cell is written and logged as in any other call.

What a thread was given and what it has written is kept to state what it finds again, and no step
looks at either.
-/

set_option autoImplicit false

namespace LightGraph

open Lib

/-- A thread between two steps. -/
structure RowThread where
  /-- where it stands in a write of a cell -/
  cell : CellPc
  /-- the row an `insert_row` has taken, and the properties it has yet to write -/
  loop : Option (LabelId × UInt32 × List (String × Value))
  given : List (LabelId × UInt32)
  written : List (PropCell × Option Value)

def RowThread.new : RowThread := { cell := .idle, loop := none, given := [], written := [] }

/-- No call is under way. -/
def RowThread.AtRest (th : RowThread) : Prop := th.cell = .idle ∧ th.loop = none

inductive RowMove
  | allocRow (label : LabelId)
  | insertRow (label : LabelId) (props : List (String × Value))
  /-- the next round of the loop of `insert_row`, or its end -/
  | next
  | insertProp (label : LabelId) (prop : String) (row : UInt32) (value : Option Value)
  | setProp (label : LabelId) (prop : String) (row : UInt32) (value : Option Value)
  | send

namespace SharedCells

/-- A row is taken, by `alloc_row` or at the start of `insert_row`. -/
def takeRow (sh : SharedCells) (th : RowThread) (label : LabelId)
    (loop : UInt32 → Option (LabelId × UInt32 × List (String × Value))) :
    SharedCells × RowThread :=
  let (row, store) := sh.store.allocRow label
  ({ sh with store }, { th with loop := loop row, given := th.given ++ [(label, row)] })

variable [Bincode (Option Value)]

/-- A step of `insert_prop` or `set_prop`, and what it has updated. -/
def execCell (sh : SharedCells) (th : RowThread) (m : CellMove) :
    Option (SharedCells × RowThread) :=
  match sh.exec th.cell m with
  | none => none
  | some (sh', cell) =>
    some (sh', { th with cell, written := th.written ++ sh'.updated.drop sh.updated.length })

/-- One step of one thread. -/
def execRow (sh : SharedCells) (th : RowThread) (m : RowMove) : Option (SharedCells × RowThread) :=
  match th.cell, th.loop, m with
  | .idle, none, .allocRow label => some (sh.takeRow th label fun _ => none)
  | .idle, none, .insertRow label props =>
    some (sh.takeRow th label fun row => some (label, row, props))
  | .idle, none, .insertProp label prop row value =>
    sh.execCell th (.insertProp label prop row value)
  | .idle, none, .setProp label prop row value => sh.execCell th (.setProp label prop row value)
  | .idle, some (_, _, []), .next => some (sh, { th with loop := none })
  | .idle, some (label, row, p :: props), .next =>
    sh.execCell { th with loop := some (label, row, props) } (.insertProp label p.1 row (some p.2))
  | .send _ _ _ _ _, _, .send => sh.execCell th .send
  | _, _, _ => none

/-- Any number of threads on one store. -/
abbrev rowStep :
    Threads SharedCells RowThread → Nat × RowMove → Option (Threads SharedCells RowThread) :=
  Threads.step execRow

end SharedCells

/-- The threads before their first call. -/
def rowThreads (store : PropStore) (threads : Nat) : Threads SharedCells RowThread :=
  { shared := { store, updated := [], sent := [] }, threads := List.replicate threads .new }

/-- A thread writes the rows it was given, and no counter turns over. -/
def RowMove.Allowed (s : Threads SharedCells RowThread) (a : Nat × RowMove) : Prop :=
  ∀ th, s.threads[a.1]? = some th →
    match a.2 with
    | .allocRow label => (s.shared.store.rowCount label).toNat + 1 < 2 ^ 32
    | .insertRow label _ => (s.shared.store.rowCount label).toNat + 1 < 2 ^ 32
    | .insertProp label _ row _ => (label, row) ∈ th.given
    | .setProp label _ row _ => (label, row) ∈ th.given
    | .next => True
    | .send => True

/-- The rows given out for a label, thread by thread. -/
def rowsGiven (s : Threads SharedCells RowThread) (label : LabelId) : List Nat :=
  ((s.threads.flatMap RowThread.given).filter fun g => g.1 = label).map fun g => g.2.toNat

end LightGraph
