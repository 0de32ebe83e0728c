import LightGraph.Storage.Bincode
import LightGraph.Wal

/-!
# The records of the transaction log in bytes

What `bincode::serialize` makes of a `WalRecord`: the number of its variant in the enum, then its
fields. The proofs about the transaction log rest on the laws of `Bincode` alone.
-/

set_option autoImplicit false

namespace LightGraph

open Lib

/-- A `HashMap` of properties: a count, then the entries. -/
def propsCodec : Codec (List (String × Value)) := Codec.list (Codec.string.pair valueCodec)

/-- The fields of the variants of `WalRecord`, in the order of the enum. -/
def walRecordVariants :=
  open Codec.Variants in
  cons (by decide) Codec.u64 <|
  cons (by decide) Codec.u64 <|
  cons (by decide) Codec.u64 <|
  cons (by decide) (Codec.u64.pair (Codec.u64.pair ((Codec.list Codec.string).pair propsCodec))) <|
  cons (by decide) (Codec.u64.pair (Codec.u64.pair propsCodec)) <|
  cons (by decide) (Codec.u64.pair Codec.u64) <|
  cons (by decide) (Codec.u64.pair (Codec.u64.pair (Codec.u64.pair (Codec.u64.pair
    (Codec.string.pair propsCodec))))) <|
  cons (by decide) (Codec.u64.pair Codec.u64) <|
  cons (by decide) Codec.u64 <|
  none 9

def walRecordCodec : Codec WalRecord :=
  walRecordVariants.codec.map
    (fun
      | .inl txId => .begin txId
      | .inr (.inl txId) => .commit txId
      | .inr (.inr (.inl txId)) => .rollback txId
      | .inr (.inr (.inr (.inl (txId, id, labels, props)))) => .nodeCreate txId id labels props
      | .inr (.inr (.inr (.inr (.inl (txId, id, props))))) => .nodeUpdate txId id props
      | .inr (.inr (.inr (.inr (.inr (.inl (txId, id)))))) => .nodeDelete txId id
      | .inr (.inr (.inr (.inr (.inr (.inr (.inl (txId, id, src, dst, etype, props))))))) =>
        .edgeCreate txId id src dst etype props
      | .inr (.inr (.inr (.inr (.inr (.inr (.inr (.inl (txId, id)))))))) => .edgeDelete txId id
      | .inr (.inr (.inr (.inr (.inr (.inr (.inr (.inr (.inl snapshotId)))))))) =>
        .checkpoint snapshotId)
    (fun
      | .begin txId => .inl txId
      | .commit txId => .inr (.inl txId)
      | .rollback txId => .inr (.inr (.inl txId))
      | .nodeCreate txId id labels props => .inr (.inr (.inr (.inl (txId, id, labels, props))))
      | .nodeUpdate txId id props => .inr (.inr (.inr (.inr (.inl (txId, id, props)))))
      | .nodeDelete txId id => .inr (.inr (.inr (.inr (.inr (.inl (txId, id))))))
      | .edgeCreate txId id src dst etype props =>
        .inr (.inr (.inr (.inr (.inr (.inr (.inl (txId, id, src, dst, etype, props)))))))
      | .edgeDelete txId id => .inr (.inr (.inr (.inr (.inr (.inr (.inr (.inl (txId, id))))))))
      | .checkpoint snapshotId =>
        .inr (.inr (.inr (.inr (.inr (.inr (.inr (.inr (.inl snapshotId)))))))))
    fun r => by cases r <;> rfl

instance : Bincode WalRecord := Codec.toBincode walRecordCodec

end LightGraph
