import LightGraph.Lib.LittleEndian
import LightGraph.Lib.FiniteMap

/-!
# The records of the stores

Ids, stamps and rows are the machine words of the source: `u64` and `u32` are `UInt64` and
`UInt32`, so a counter that runs over wraps here where it wraps there. A float is kept as its
bit pattern — no store ever computes with one.

`Bincode` is the serializer, which is a third-party crate. It is a parameter of everything
that touches a log, and its two laws are what the crate documents: what was serialized
deserializes to itself, and input that ends early is an error.
-/

set_option autoImplicit false

namespace LightGraph

open Lib

abbrev NodeId := UInt64
abbrev EdgeId := UInt64
abbrev LabelId := UInt32
abbrev TypeId := UInt32
abbrev TxId := UInt64

def nullEdge : EdgeId := 0xFFFFFFFFFFFFFFFF
def maxTxId : TxId := 0xFFFFFFFFFFFFFFFF

/-- A node of the graph. -/
structure Node where
  id : NodeId
  labels : List LabelId
  /-- head of the chain of outgoing edges -/
  firstOut : EdgeId
  /-- head of the chain of incoming edges -/
  firstIn : EdgeId
  /-- row in the property store -/
  propsRow : UInt32
  createdTx : TxId
  /-- `maxTxId` while the node is alive -/
  deletedTx : TxId
  deriving DecidableEq

/-- A directed edge between two nodes. -/
structure Edge where
  id : EdgeId
  src : NodeId
  dst : NodeId
  etype : TypeId
  /-- next edge with the same source -/
  nextOut : EdgeId
  /-- next edge with the same target -/
  nextIn : EdgeId
  propsRow : UInt32
  createdTx : TxId
  /-- `maxTxId` while the edge is alive -/
  deletedTx : TxId
  deriving DecidableEq

/-- `created_tx <= tx && deleted_tx > tx`, the test `Node::is_alive` and `Edge::is_alive`
share. -/
def aliveAt (createdTx deletedTx tx : TxId) : Bool :=
  createdTx ≤ tx && deletedTx > tx

def Node.new (id : NodeId) (labels : List LabelId) (propsRow : UInt32) (createdTx : TxId) :
    Node :=
  { id, labels, firstOut := nullEdge, firstIn := nullEdge, propsRow, createdTx,
    deletedTx := maxTxId }

def Node.isAlive (n : Node) (tx : TxId) : Bool := aliveAt n.createdTx n.deletedTx tx

def Edge.new (id : EdgeId) (src dst : NodeId) (etype : TypeId) (propsRow : UInt32)
    (createdTx : TxId) : Edge :=
  { id, src, dst, etype, nextOut := nullEdge, nextIn := nullEdge, propsRow, createdTx,
    deletedTx := maxTxId }

def Edge.isAlive (e : Edge) (tx : TxId) : Bool := aliveAt e.createdTx e.deletedTx tx

/-- A property value. `float` and `vector` carry bit patterns. -/
inductive Value
  | null
  | bool (b : Bool)
  | int (v : Int64)
  | float (bits : UInt64)
  | string (s : String)
  | list (vs : List Value)
  | vector (bits : List UInt32)

/-- What the stores rely on of `bincode::serialize` and `bincode::deserialize` at a type. -/
class Bincode (α : Type) where
  serialize : α → Option Bytes
  deserialize : Bytes → Option α
  roundtrip : ∀ a, ∃ data, serialize a = some data ∧ deserialize data = some a
  truncated : ∀ a data, serialize a = some data → ∀ start, start <+: data → start ≠ data →
    deserialize start = none

/-- The bytes a record serializes to. -/
def Bincode.bytes {α : Type} [Bincode α] (a : α) : Bytes := (serialize a).getD []

theorem Bincode.serialize_eq {α : Type} [Bincode α] (a : α) : serialize a = some (bytes a) := by
  obtain ⟨data, hs, _⟩ := roundtrip a
  rw [bytes, hs, Option.getD_some]

theorem Bincode.deserialize_bytes {α : Type} [Bincode α] (a : α) :
    deserialize (bytes a) = some a := by
  obtain ⟨data, hs, hd⟩ := roundtrip a
  rw [bytes, hs, Option.getD_some, hd]

/-! ## Counters and stamps -/

/-- A counter that has not reached the last word does not wrap. -/
theorem toNat_add_one_of_lt_max {t : UInt64} (h : t < maxTxId) : (t + 1).toNat = t.toNat + 1 := by
  have hmax : t.toNat < 18446744073709551615 := h
  have hone : (1 : UInt64).toNat = 1 := rfl
  rw [UInt64.toNat_add, hone]
  omega

theorem lt_add_one_of_lt_max {t : UInt64} (h : t < maxTxId) : t < t + 1 := by
  rw [UInt64.lt_iff_toNat_lt, toNat_add_one_of_lt_max h]
  exact Nat.lt_succ_self _

theorem aliveAt_iff {c d tx : TxId} : aliveAt c d tx = true ↔ c ≤ tx ∧ tx < d := by
  simp [aliveAt]

end LightGraph
