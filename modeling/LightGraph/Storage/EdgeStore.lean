import LightGraph.Storage.RecordStore

/-!
# The edge store

`edge_store.rs`. An edge store is a record store and nothing else; its own operations are the
ones on the adjacency chains, whose heads the caller owns and passes in.
-/

set_option autoImplicit false

namespace LightGraph

open Lib

abbrev EdgeStore := RecordStore Edge

namespace EdgeStore

def new : EdgeStore := RecordStore.new

section Persistent
variable [Bincode Edge]

/-- Allocate an id without inserting. -/
def allocIdDirect (s : EdgeStore) : EdgeId × EdgeStore := s.allocId

/-- Insert with a pre-allocated id. -/
def insertEdgeWithId (s : EdgeStore) (id : EdgeId) (src dst : NodeId) (etype : TypeId)
    (propsRow : UInt32) (txId : TxId) : EdgeStore :=
  RecordStore.insertWithId s id (Edge.new id src dst etype propsRow txId)

def insertEdge (s : EdgeStore) (src dst : NodeId) (etype : TypeId) (propsRow : UInt32)
    (txId : TxId) : EdgeId × EdgeStore :=
  s.insert fun id => Edge.new id src dst etype propsRow txId

/-- A change through `get_mut` that is not logged. -/
def modifySilently (s : EdgeStore) (id : EdgeId) (f : Edge → Edge) : EdgeStore :=
  match s.records.get id with
  | some e => { s with records := s.records.put id (f e) }
  | none => s

/-- Log an edge as it stands. -/
def persist (s : EdgeStore) (id : EdgeId) : EdgeStore :=
  match s.records.get id with
  | some e => s.walInsert id e
  | none => s

/-- Link an edge into both chains at their heads; returns the new heads. -/
def linkIntoChains (s : EdgeStore) (newEdge srcFirstOut dstFirstIn : EdgeId) :
    EdgeStore × EdgeId × EdgeId :=
  let s := s.modifySilently newEdge fun e => { e with nextOut := srcFirstOut }
  let srcFirstOut := newEdge
  let s := s.modifySilently newEdge fun e => { e with nextIn := dstFirstIn }
  let dstFirstIn := newEdge
  -- Persist the updated edge.
  let s := s.persist newEdge
  (s, srcFirstOut, dstFirstIn)

def softDelete (s : EdgeStore) (id : EdgeId) (txId : TxId) : EdgeStore × Bool :=
  s.modify id fun e => { e with deletedTx := txId }

end Persistent
end EdgeStore

/-! ## The chains -/

/-- The two lists an edge is in: the edges with its source, and those with its target. -/
inductive ChainSide
  | outgoing
  | incoming
  deriving DecidableEq

namespace ChainSide

def next : ChainSide → Edge → EdgeId
  | .outgoing, e => e.nextOut
  | .incoming, e => e.nextIn

def setNext : ChainSide → EdgeId → Edge → Edge
  | .outgoing, next, e => { e with nextOut := next }
  | .incoming, next, e => { e with nextIn := next }

/-- The node whose list it is. -/
def node : ChainSide → Edge → NodeId
  | .outgoing, e => e.src
  | .incoming, e => e.dst

end ChainSide

namespace EdgeStore

/-- A loop along a chain visits no edge twice if it ends, so these rounds are enough for it; a
loop that has not ended by then never does. -/
def rounds (s : EdgeStore) : Nat := s.records.keys.card + 1

/-- The loop that looks for the predecessor of an edge, with the rounds it has left. -/
def findPred (side : ChainSide) (s : EdgeStore) (edgeId : EdgeId) :
    Nat → EdgeId → Option (Option EdgeId)
  | 0, _ => none
  | rounds + 1, cur =>
    if cur = nullEdge then some none
    else
      match s.records.get cur with
      | none => some none
      | some e =>
        if side.next e = edgeId then some (some cur)
        else findPred side s edgeId rounds (side.next e)

/-- Take an edge out of one of its chains: the store, the new head, and the predecessor if it
has been changed; `none` where the loop does not end. -/
def unlinkFrom (side : ChainSide) (s : EdgeStore) (edgeId next head : EdgeId) :
    Option (EdgeStore × EdgeId × Option EdgeId) :=
  if head = edgeId then some (s, next, none)
  else
    match s.findPred side edgeId s.rounds head with
    | none => none
    | some none => some (s, head, none)
    | some (some pred) => some (s.modifySilently pred (side.setNext next), head, some pred)

/-- Log a predecessor. -/
def persistPred [Bincode Edge] (s : EdgeStore) : Option EdgeId → EdgeStore
  | some id => s.persist id
  | none => s

/-- Unlink an edge from both chains; returns the new heads. -/
def unlinkFromChains [Bincode Edge] (s : EdgeStore) (edgeId srcFirstOut dstFirstIn : EdgeId) :
    Option (EdgeStore × EdgeId × EdgeId × Bool) :=
  match s.records.get edgeId with
  | none => some (s, srcFirstOut, dstFirstIn, false)
  | some edge =>
    match s.unlinkFrom .outgoing edgeId edge.nextOut srcFirstOut with
    | none => none
    | some (s, srcFirstOut, srcPred) =>
      match s.unlinkFrom .incoming edgeId edge.nextIn dstFirstIn with
      | none => none
      | some (s, dstFirstIn, dstPred) =>
        -- Persist the predecessors.
        some ((s.persistPred srcPred).persistPred dstPred, srcFirstOut, dstFirstIn, true)

/-! ## Traversal -/

/-- The loop of the traversals, with the rounds it has left. -/
def collect (next : Edge → EdgeId) (keep : Edge → Bool) (s : EdgeStore) :
    Nat → EdgeId → Option (List EdgeId)
  | 0, _ => none
  | rounds + 1, cur =>
    if cur = nullEdge then some []
    else
      match s.records.get cur with
      | none => some []
      | some e =>
        (collect next keep s rounds (next e)).map fun r => if keep e then cur :: r else r

def outEdges (s : EdgeStore) (start : EdgeId) : Option (List EdgeId) :=
  s.collect Edge.nextOut (fun _ => true) s.rounds start

def inEdges (s : EdgeStore) (start : EdgeId) : Option (List EdgeId) :=
  s.collect Edge.nextIn (fun _ => true) s.rounds start

def outEdgesVisible (s : EdgeStore) (start : EdgeId) (tx : TxId) : Option (List EdgeId) :=
  s.collect Edge.nextOut (fun e => e.isAlive tx) s.rounds start

end EdgeStore

/-- One call that changes an edge store. -/
inductive EdgeOp
  | insertEdge (src dst : NodeId) (etype : TypeId) (propsRow : UInt32) (txId : TxId)
  | allocIdDirect
  | insertWithId (id : EdgeId) (src dst : NodeId) (etype : TypeId) (propsRow : UInt32)
      (txId : TxId)
  | linkIntoChains (newEdge srcFirstOut dstFirstIn : EdgeId)
  | softDelete (id : EdgeId) (txId : TxId)
  | hardDelete (id : EdgeId)

def EdgeStore.perform [Bincode Edge] (s : EdgeStore) : EdgeOp → EdgeStore
  | .insertEdge src dst etype propsRow txId =>
    (EdgeStore.insertEdge s src dst etype propsRow txId).2
  | .allocIdDirect => (EdgeStore.allocIdDirect s).2
  | .insertWithId id src dst etype propsRow txId =>
    EdgeStore.insertEdgeWithId s id src dst etype propsRow txId
  | .linkIntoChains newEdge srcFirstOut dstFirstIn =>
    (EdgeStore.linkIntoChains s newEdge srcFirstOut dstFirstIn).1
  | .softDelete id txId => (EdgeStore.softDelete s id txId).1
  | .hardDelete id => (s.hardDelete id).1

/-- A call, the unlink among them, which may not return. -/
inductive EdgeCall
  | op (o : EdgeOp)
  | unlinkFromChains (edgeId srcFirstOut dstFirstIn : EdgeId)

/-- `none` where the call does not return. -/
def EdgeStore.performCall [Bincode Edge] (s : EdgeStore) : EdgeCall → Option EdgeStore
  | .op o => some (EdgeStore.perform s o)
  | .unlinkFromChains edgeId srcFirstOut dstFirstIn =>
    (EdgeStore.unlinkFromChains s edgeId srcFirstOut dstFirstIn).map (·.1)

def EdgeStore.open [Bincode Edge] (file : Bytes) : Except IoError EdgeStore :=
  match RecordStore.openReplay file with
  | .error e => .error e
  | .ok (s, _) => .ok s

end LightGraph
