import LightGraph.Storage.NodeStore
import LightGraph.Storage.EdgeStore
import LightGraph.Storage.PropStore
import LightGraph.Transaction.TxManager

/-!
# Transactions and the database

`transaction/mod.rs`. A write transaction buffers its writes by kind; `commit` takes its turn
at the transaction manager, applies the buffers kind by kind and flushes the stores. The six
loops of `commit` are one list of writes, `Transaction.writes`, and one function that performs
a write, `Database.perform`: what interleaves with other threads is the single write.

A directory is the three logs. `Database.dir` is what they hold after a flush.
-/

set_option autoImplicit false

namespace LightGraph

open Lib

structure Directory where
  nodesWal : Bytes
  edgesWal : Bytes
  propsWal : Bytes

structure Database where
  txManager : TxManager
  nodes : NodeStore
  edges : EdgeStore
  props : PropStore

/-- One store write of a commit. -/
inductive StoreWrite
  | insertNode (id : NodeId) (labels : List LabelId) (propsRow : UInt32)
  | updateLabels (id : NodeId) (labels : List LabelId)
  | deleteNode (id : NodeId)
  | insertEdge (id : EdgeId) (src dst : NodeId) (etype : LabelId) (propsRow : UInt32)
  | deleteEdge (id : EdgeId)
  | insertProp (label : LabelId) (prop : String) (row : UInt32) (value : Option Value)

structure Transaction where
  txId : TxId
  snapshot : TxId
  isWrite : Bool
  committed : Bool
  nodeInserts : List (NodeId × List LabelId × UInt32)
  nodeUpdates : List (NodeId × List LabelId)
  nodeDeletes : List NodeId
  edgeInserts : List (EdgeId × NodeId × NodeId × LabelId × UInt32)
  edgeDeletes : List EdgeId
  propWrites : List (LabelId × String × UInt32 × Option Value)

namespace Transaction

def new (txId snapshot : TxId) (isWrite : Bool) : Transaction :=
  { txId, snapshot, isWrite, committed := false, nodeInserts := [], nodeUpdates := [],
    nodeDeletes := [], edgeInserts := [], edgeDeletes := [], propWrites := [] }

/-! ## Buffered writes -/

/-- Create a node. The id is allocated at once, the rest waits for the commit. -/
def createNode (tx : Transaction) (db : Database) (labels : List LabelId) (propsRow : UInt32) :
    NodeId × Transaction × Database :=
  let (id, nodes) := db.nodes.allocIdDirect
  (id, { tx with nodeInserts := tx.nodeInserts ++ [(id, labels, propsRow)] }, { db with nodes })

def updateNodeLabels (tx : Transaction) (id : NodeId) (labels : List LabelId) : Transaction :=
  { tx with nodeUpdates := tx.nodeUpdates ++ [(id, labels)] }

def deleteNode (tx : Transaction) (id : NodeId) : Transaction :=
  { tx with nodeDeletes := tx.nodeDeletes ++ [id] }

/-- Create an edge, likewise. -/
def createEdge (tx : Transaction) (db : Database) (src dst : NodeId) (etype : LabelId)
    (propsRow : UInt32) : EdgeId × Transaction × Database :=
  let (id, edges) := db.edges.allocIdDirect
  (id, { tx with edgeInserts := tx.edgeInserts ++ [(id, src, dst, etype, propsRow)] },
    { db with edges })

def deleteEdge (tx : Transaction) (id : EdgeId) : Transaction :=
  { tx with edgeDeletes := tx.edgeDeletes ++ [id] }

def setProp (tx : Transaction) (label : LabelId) (prop : String) (row : UInt32)
    (value : Option Value) : Transaction :=
  { tx with propWrites := tx.propWrites ++ [(label, prop, row, value)] }

/-! ## Reads -/

/-- Read a node as of our snapshot. -/
def getNode (tx : Transaction) (db : Database) (id : NodeId) : Option Node :=
  (db.nodes.get id).filter fun n => n.isAlive tx.snapshot

/-- Read an edge as of our snapshot. -/
def getEdge (tx : Transaction) (db : Database) (id : EdgeId) : Option Edge :=
  (db.edges.get id).filter fun e => e.isAlive tx.snapshot

/-- The writes of phase 2 of `commit`, in the order of its loops. -/
def writes (tx : Transaction) : List StoreWrite :=
  tx.nodeInserts.map (fun (id, labels, propsRow) => .insertNode id labels propsRow)
    ++ tx.nodeUpdates.map (fun (id, labels) => .updateLabels id labels)
    ++ tx.nodeDeletes.map .deleteNode
    ++ tx.edgeInserts.map
      (fun (id, src, dst, etype, propsRow) => .insertEdge id src dst etype propsRow)
    ++ tx.edgeDeletes.map .deleteEdge
    ++ tx.propWrites.map (fun (label, prop, row, value) => .insertProp label prop row value)

end Transaction

namespace Database

/-- Create an in-memory database. -/
def memory : Database :=
  { txManager := TxManager.new, nodes := NodeStore.new, edges := EdgeStore.new,
    props := PropStore.new }

/-- Begin a read-only transaction. Does not acquire a ticket. -/
def beginRead (db : Database) : Transaction := Transaction.new 0 db.txManager.beginRead false

/-- Begin a write transaction. -/
def beginWrite (db : Database) : Transaction × Database :=
  let (txId, txManager) := db.txManager.beginWrite
  (Transaction.new txId txManager.latestCommitted true, { db with txManager })

/-- The stores of a database with another transaction manager. -/
def withManager (db : Database) (txManager : TxManager) : Database := { db with txManager }

/-- The logs once the stores have been flushed. -/
def dir (db : Database) : Directory :=
  { nodesWal := db.nodes.file, edgesWal := db.edges.file, propsWal := db.props.file }

section Persistent
variable [Bincode Node] [Bincode Edge] [Bincode (Option Value)]

/-- One round of one of the loops of phase 2. -/
def perform (txId : TxId) (db : Database) : StoreWrite → Database
  | .insertNode id labels propsRow =>
    { db with nodes := db.nodes.insertWithId id labels propsRow txId }
  | .updateLabels id labels => { db with nodes := (db.nodes.updateLabels id labels txId).1 }
  | .deleteNode id => { db with nodes := (db.nodes.softDelete id txId).1 }
  | .insertEdge id src dst etype propsRow =>
    { db with edges := EdgeStore.insertEdgeWithId db.edges id src dst etype propsRow txId }
  | .deleteEdge id => { db with edges := (EdgeStore.softDelete db.edges id txId).1 }
  | .insertProp label prop row value =>
    { db with props := db.props.insertProp label prop row value }

/-- Phase 2. -/
def performAll (txId : TxId) (db : Database) (ws : List StoreWrite) : Database :=
  ws.foldl (perform txId) db

end Persistent
end Database

section Persistent
variable [Bincode Node] [Bincode Edge] [Bincode (Option Value)]

def Database.open (dir : Directory) : Except IoError Database :=
  match NodeStore.open dir.nodesWal with
  | .error e => .error e
  | .ok nodes =>
    match EdgeStore.open dir.edgesWal with
    | .error e => .error e
    | .ok edges =>
      match PropStore.open dir.propsWal with
      | .error e => .error e
      | .ok props => .ok { txManager := TxManager.new, nodes, edges, props }

/-- Apply all buffered writes. The flush of phase 3 puts on disk what `Database.dir` shows. -/
def Transaction.commit (tx : Transaction) (db : Database) :
    Except String (Transaction × Database) :=
  if !tx.isWrite then .ok (tx, db)
  else if tx.committed then .error "already committed or rolled back"
  else
    -- Phase 1: our turn in the ticket-lock.
    match db.txManager.commit tx.txId with
    | .error e => .error e
    | .ok txManager =>
      let tx := { tx with committed := true }
      .ok (tx, (db.withManager txManager).performAll tx.txId tx.writes)

/-- Discard all buffered writes and release our ticket; `none` where the call does not
return. -/
def Transaction.rollback (tx : Transaction) (db : Database) : Option (Transaction × Database) :=
  if tx.isWrite then
    match db.txManager.rollback tx.txId with
    | none => none
    | some txManager => some ({ tx with committed := true }, db.withManager txManager)
  else some (tx, db)

/-! ## Transactions one at a time -/

/-- A call that fills a transaction's buffers. -/
inductive TxCall
  | createNode (labels : List LabelId) (propsRow : UInt32)
  | updateNodeLabels (id : NodeId) (labels : List LabelId)
  | deleteNode (id : NodeId)
  | createEdge (src dst : NodeId) (etype : LabelId) (propsRow : UInt32)
  | deleteEdge (id : EdgeId)
  | setProp (label : LabelId) (prop : String) (row : UInt32) (value : Option Value)

def TxCall.apply : Transaction × Database → TxCall → Transaction × Database
  | (tx, db), .createNode labels propsRow => (tx.createNode db labels propsRow).2
  | (tx, db), .updateNodeLabels id labels => (tx.updateNodeLabels id labels, db)
  | (tx, db), .deleteNode id => (tx.deleteNode id, db)
  | (tx, db), .createEdge src dst etype propsRow => (tx.createEdge db src dst etype propsRow).2
  | (tx, db), .deleteEdge id => (tx.deleteEdge id, db)
  | (tx, db), .setProp label prop row value => (tx.setProp label prop row value, db)

/-- A whole write transaction: the calls on it, and how it is ended. Dropping a transaction
rolls it back. -/
structure TxScript where
  calls : List TxCall
  commits : Bool

/-- The transaction of a script, buffers filled, just before it is ended. -/
def Database.prepare (db : Database) (script : TxScript) : Transaction × Database :=
  script.calls.foldl TxCall.apply db.beginWrite

/-- Run one write transaction with no other under way; `none` where it does not come to its
end. -/
def Database.runTx (db : Database) (script : TxScript) : Option Database :=
  let (tx, db) := db.prepare script
  if script.commits then
    match tx.commit db with
    | .error _ => none
    | .ok (_, db) => some db
  else (tx.rollback db).map (·.2)

end Persistent
end LightGraph
