import LightGraph.Storage.RecordStore

/-!
# The node store

`node_store.rs`, operation by operation. What iterates over the map does so in an order nobody
promises, which is a parameter; `compact` as a thread among others is in `StoreThreads.lean`.
-/

set_option autoImplicit false

namespace LightGraph

open Lib

structure NodeStore extends RecordStore Node where
  totalEver : UInt64

namespace NodeStore

/-- `NodeStore::new` and `with_capacity`. -/
def new : NodeStore := { RecordStore.new with totalEver := 0 }

section Persistent
variable [Bincode Node]

/-- Allocate an id without inserting. -/
def allocIdDirect (s : NodeStore) : NodeId × NodeStore :=
  let (id, store) := s.toRecordStore.allocId
  (id, { s with toRecordStore := store })

/-- Insert with a pre-allocated id. -/
def insertWithId (s : NodeStore) (id : NodeId) (labels : List LabelId) (propsRow : UInt32)
    (txId : TxId) : NodeStore :=
  { toRecordStore := s.toRecordStore.insertWithId id (Node.new id labels propsRow txId)
    totalEver := s.totalEver + 1 }

def insertNode (s : NodeStore) (labels : List LabelId) (propsRow : UInt32) (txId : TxId) :
    NodeId × NodeStore :=
  let (id, store) := s.toRecordStore.insert fun id => Node.new id labels propsRow txId
  (id, { toRecordStore := store, totalEver := s.totalEver + 1 })

/-- The shape of every update: `get_mut`, change, log the whole node. -/
def modify (s : NodeStore) (id : NodeId) (f : Node → Node) : NodeStore × Bool :=
  let (store, ok) := s.toRecordStore.modify id f
  ({ s with toRecordStore := store }, ok)

def updateLabels (s : NodeStore) (id : NodeId) (labels : List LabelId) (txId : TxId) :
    NodeStore × Bool :=
  s.modify id fun node => { node with labels, createdTx := txId }

def updatePropsRow (s : NodeStore) (id : NodeId) (propsRow : UInt32) : NodeStore × Bool :=
  s.modify id fun node => { node with propsRow }

def setFirstOut (s : NodeStore) (id : NodeId) (edgeId : EdgeId) : NodeStore × Bool :=
  s.modify id fun node => { node with firstOut := edgeId }

def setFirstIn (s : NodeStore) (id : NodeId) (edgeId : EdgeId) : NodeStore × Bool :=
  s.modify id fun node => { node with firstIn := edgeId }

def softDelete (s : NodeStore) (id : NodeId) (txId : TxId) : NodeStore × Bool :=
  s.modify id fun node => { node with deletedTx := txId }

def hardDelete (s : NodeStore) (id : NodeId) : NodeStore × Bool :=
  let (store, ok) := s.toRecordStore.hardDelete id
  ({ s with toRecordStore := store }, ok)

/-! ## MVCC -/

def visibleNodes (order : FiniteMap.IterOrder NodeId Node) (s : NodeStore) (tx : TxId) :
    List NodeId :=
  ((order.entries s.records).filter fun e => e.2.isAlive tx).map Prod.fst

def visibleCount (order : FiniteMap.IterOrder NodeId Node) (s : NodeStore) (tx : TxId) : Nat :=
  ((order.entries s.records).filter fun e => e.2.isAlive tx).length

/-! ## Compaction -/

/-- The ids `compact` collects. -/
def toRemove (order : FiniteMap.IterOrder NodeId Node) (s : NodeStore) (oldestActiveTx : TxId) :
    List NodeId :=
  ((order.entries s.records).filter fun e => e.2.deletedTx < oldestActiveTx).map Prod.fst

/-- Hard-delete what has been collected; returns how many. -/
def compact (order : FiniteMap.IterOrder NodeId Node) (s : NodeStore) (oldestActiveTx : TxId) :
    NodeStore × Nat :=
  let toRemove := s.toRemove order oldestActiveTx
  (toRemove.foldl (fun s id => (s.hardDelete id).1) s, toRemove.length)

end Persistent
end NodeStore

/-- One call that changes a node store. -/
inductive NodeOp
  | insertNode (labels : List LabelId) (propsRow : UInt32) (txId : TxId)
  | allocIdDirect
  | insertWithId (id : NodeId) (labels : List LabelId) (propsRow : UInt32) (txId : TxId)
  | updateLabels (id : NodeId) (labels : List LabelId) (txId : TxId)
  | updatePropsRow (id : NodeId) (propsRow : UInt32)
  | setFirstOut (id : NodeId) (edgeId : EdgeId)
  | setFirstIn (id : NodeId) (edgeId : EdgeId)
  | softDelete (id : NodeId) (txId : TxId)
  | hardDelete (id : NodeId)

def NodeStore.perform [Bincode Node] (s : NodeStore) : NodeOp → NodeStore
  | .insertNode labels propsRow txId => (s.insertNode labels propsRow txId).2
  | .allocIdDirect => s.allocIdDirect.2
  | .insertWithId id labels propsRow txId => s.insertWithId id labels propsRow txId
  | .updateLabels id labels txId => (s.updateLabels id labels txId).1
  | .updatePropsRow id propsRow => (s.updatePropsRow id propsRow).1
  | .setFirstOut id edgeId => (s.setFirstOut id edgeId).1
  | .setFirstIn id edgeId => (s.setFirstIn id edgeId).1
  | .softDelete id txId => (s.softDelete id txId).1
  | .hardDelete id => (s.hardDelete id).1

/-- One call, or a compaction with the order of its iteration. -/
inductive NodeStoreCall
  | op (op : NodeOp)
  | compact (order : FiniteMap.IterOrder NodeId Node) (oldestActiveTx : TxId)

def NodeStore.call [Bincode Node] (s : NodeStore) : NodeStoreCall → NodeStore
  | .op op => s.perform op
  | .compact order oldestActiveTx => (NodeStore.compact order s oldestActiveTx).1

def NodeStore.open [Bincode Node] (file : Bytes) : Except IoError NodeStore :=
  match RecordStore.openReplay file with
  | .error e => .error e
  | .ok (s, inserted) => .ok { s with totalEver := inserted }

end LightGraph
