import LightGraph.Lib.Machine
import LightGraph.Transaction.Database

/-!
# The transactions of one thread

One thread has a database to itself and any number of transactions on it. It calls their methods in
any order, each as often as it likes, until it drops them. A call that does not return ends the
thread: it is no step.
-/

set_option autoImplicit false

namespace LightGraph

open Lib

/-- The store write a call stands for, and the database with the id it may have taken. -/
def TxCall.issue (db : Database) : TxCall → StoreWrite × Database
  | .createNode labels propsRow =>
    let (id, nodes) := db.nodes.allocIdDirect
    (.insertNode id labels propsRow, { db with nodes })
  | .updateNodeLabels id labels => (.updateLabels id labels, db)
  | .deleteNode id => (.deleteNode id, db)
  | .createEdge src dst etype propsRow =>
    let (id, edges) := db.edges.allocIdDirect
    (.insertEdge id src dst etype propsRow, { db with edges })
  | .deleteEdge id => (.deleteEdge id, db)
  | .setProp label prop row value => (.insertProp label prop row value, db)

/-- The writes the calls stand for, in the order they are issued. -/
def Database.issued (db : Database) : List TxCall → List StoreWrite
  | [] => []
  | c :: calls => (c.issue db).1 :: (c.issue db).2.issued calls

/-- `Drop for Transaction`; `none` where it does not return. -/
def Transaction.drop (tx : Transaction) (db : Database) : Option Database :=
  if tx.isWrite && !tx.committed then
    match db.txManager.rollback tx.txId with
    | none => none
    | some txManager => some (db.withManager txManager)
  else some db

/-- A transaction the thread has begun. -/
structure TxHandle where
  tx : Transaction
  /-- the writes of the calls made on it, in their order -/
  issued : List StoreWrite
  dropped : Bool

/-- It has committed, or has been rolled back or dropped. -/
def TxHandle.Ended (h : TxHandle) : Prop := h.tx.committed = true ∨ h.dropped = true

structure TxSession where
  db : Database
  /-- in the order they were begun -/
  txs : List TxHandle

/-- One call, on the `i`-th transaction. -/
inductive TxAction
  | beginRead
  | beginWrite
  | call (i : Nat) (c : TxCall)
  | commit (i : Nat)
  | rollback (i : Nat)
  | drop (i : Nat)

/-- Only a write transaction takes a ticket. -/
def TxAction.beginsWrite : TxAction → Bool
  | .beginWrite => true
  | _ => false

namespace TxSession

def start (db : Database) : TxSession := { db, txs := [] }

/-- A transaction that can still be called. -/
def handle (s : TxSession) (i : Nat) : Option TxHandle := s.txs[i]?.filter fun h => !h.dropped

section Persistent
variable [Bincode Node] [Bincode Edge] [Bincode (Option Value)]

def step (s : TxSession) : TxAction → Option TxSession
  | .beginRead => some { s with txs := s.txs ++ [⟨s.db.beginRead, [], false⟩] }
  | .beginWrite =>
    let (tx, db) := s.db.beginWrite
    some { db, txs := s.txs ++ [⟨tx, [], false⟩] }
  | .call i c =>
    match s.handle i with
    | none => none
    | some h =>
      let (tx, db) := TxCall.apply (h.tx, s.db) c
      some { db, txs := s.txs.set i { h with tx, issued := h.issued ++ [(c.issue s.db).1] } }
  | .commit i =>
    match s.handle i with
    | none => none
    | some h =>
      match h.tx.commit s.db with
      | .error _ => some s
      | .ok (tx, db) => some { db, txs := s.txs.set i { h with tx } }
  | .rollback i =>
    match s.handle i with
    | none => none
    | some h =>
      match h.tx.rollback s.db with
      | none => none
      | some (tx, db) => some { db, txs := s.txs.set i { h with tx } }
  | .drop i =>
    match s.handle i with
    | none => none
    | some h =>
      match h.tx.drop s.db with
      | none => none
      | some db => some { db, txs := s.txs.set i { h with dropped := true } }

end Persistent
end TxSession
end LightGraph
