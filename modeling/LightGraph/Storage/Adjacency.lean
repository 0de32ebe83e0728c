import LightGraph.Lib.Machine
import LightGraph.Storage.EdgeStore
import Mathlib.Logic.Function.Basic

/-!
# An edge store and its callers' heads

The chains' heads are not in the edge store: whoever links and unlinks keeps, for each node, one
variable for its outgoing edges and one for its incoming ones, and passes the two of the edge's
ends in. This is the machine of such a caller who plays by the rules: an edge is linked once and
unlinked once, and not deleted for good while it is linked.
-/

set_option autoImplicit false

namespace LightGraph

open Lib

structure Adjacency where
  store : EdgeStore
  firstOut : NodeId → EdgeId
  firstIn : NodeId → EdgeId
  /-- the edges linked and not yet unlinked, the latest first -/
  linked : List EdgeId

inductive AdjacencyStep
  | insertEdge (src dst : NodeId) (etype : TypeId) (propsRow : UInt32) (txId : TxId)
  | link (e : EdgeId)
  | unlink (e : EdgeId)
  | softDelete (id : EdgeId) (txId : TxId)
  | hardDelete (id : EdgeId)

namespace Adjacency

def start : Adjacency :=
  { store := EdgeStore.new, firstOut := fun _ => nullEdge, firstIn := fun _ => nullEdge,
    linked := [] }

section Persistent
variable [Bincode Edge]

/-- A call of the caller's. Linking an edge that is linked or not in the store, unlinking one that
is not linked, and deleting a linked one for good are calls it does not make. -/
def step (s : Adjacency) : AdjacencyStep → Option Adjacency
  | .insertEdge src dst etype propsRow txId =>
    some { s with store := (EdgeStore.insertEdge s.store src dst etype propsRow txId).2 }
  | .link e =>
    match s.store.records.get e with
    | none => none
    | some edge =>
      if e ∈ s.linked then none
      else
        let (store, srcFirstOut, dstFirstIn) :=
          EdgeStore.linkIntoChains s.store e (s.firstOut edge.src) (s.firstIn edge.dst)
        some { store
               firstOut := Function.update s.firstOut edge.src srcFirstOut
               firstIn := Function.update s.firstIn edge.dst dstFirstIn
               linked := e :: s.linked }
  | .unlink e =>
    match s.store.records.get e with
    | none => none
    | some edge =>
      if e ∈ s.linked then
        match EdgeStore.unlinkFromChains s.store e (s.firstOut edge.src) (s.firstIn edge.dst) with
        -- the call does not return
        | none => none
        | some (store, srcFirstOut, dstFirstIn, _) =>
          some { store
                 firstOut := Function.update s.firstOut edge.src srcFirstOut
                 firstIn := Function.update s.firstIn edge.dst dstFirstIn
                 linked := s.linked.erase e }
      else none
  | .softDelete id txId => some { s with store := (EdgeStore.softDelete s.store id txId).1 }
  | .hardDelete id =>
    if id ∈ s.linked then none else some { s with store := (s.store.hardDelete id).1 }

end Persistent

/-- The list a traversal from a node's head shows. -/
def outList (s : Adjacency) (v : NodeId) : Option (List EdgeId) :=
  EdgeStore.outEdges s.store (s.firstOut v)

def inList (s : Adjacency) (v : NodeId) : Option (List EdgeId) :=
  EdgeStore.inEdges s.store (s.firstIn v)

/-- The linked edges of a node, the latest first: what its list should be. -/
def linkedAt (s : Adjacency) (side : ChainSide) (v : NodeId) : List EdgeId :=
  s.linked.filter fun e => (s.store.records.get e).map side.node = some v

end Adjacency
end LightGraph
