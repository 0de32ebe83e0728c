import LightGraph.Storage.Types

/-!
# The transaction manager

`tx_manager.rs`: a ticket dispenser and a now-serving counter. `commit` and `rollback` are the
same loop around one atomic round, `advance`: read the counter and, if it stands just before
our ticket, move it to the ticket. Nobody else moves the counter between the read and the
store, since only the holder of that one ticket may.

The loops below are those of a caller while nobody else moves the counter. What several
callers do to each other is one `advance` at a time, in `Transaction/Commits.lean`.
-/

set_option autoImplicit false

namespace LightGraph

structure TxManager where
  /-- next TxId to hand out -/
  nextTxId : TxId
  /-- highest TxId that has been committed or rolled back -/
  committedTxId : TxId
  deriving DecidableEq

namespace TxManager

def new : TxManager := { nextTxId := 1, committedTxId := 0 }

def beginRead (m : TxManager) : TxId := m.committedTxId

def beginWrite (m : TxManager) : TxId × TxManager :=
  (m.nextTxId, { m with nextTxId := m.nextTxId + 1 })

def latestCommitted (m : TxManager) : TxId := m.committedTxId

/-- One round of the loop of `commit` and `rollback`. -/
def advance (m : TxManager) (txId : TxId) : Option TxManager :=
  let expected := txId - 1
  if m.committedTxId = expected then some { m with committedTxId := txId } else none

/-- Max spin iterations before commit times out. -/
def spinLimit : Nat := 100000

/-- The loop of `commit`, with the rounds it has left. -/
def commitLoop (m : TxManager) (txId : TxId) : Nat → Except String TxManager
  | 0 => .error "timeout"
  | rounds + 1 =>
    match m.advance txId with
    | some m => .ok m
    | none => m.commitLoop txId rounds

/-- The limit is tested after a failed round, so there is one round more. -/
def commit (m : TxManager) (txId : TxId) : Except String TxManager :=
  m.commitLoop txId (spinLimit + 1)

/-- `none` where the loop does not end. -/
def rollback (m : TxManager) (txId : TxId) : Option TxManager := m.advance txId

/-! ## Out of turn, nothing moves -/

theorem advance_eq_some_iff {m m' : TxManager} {txId : TxId} :
    m.advance txId = some m' ↔
      m.committedTxId = txId - 1 ∧ m' = { m with committedTxId := txId } := by
  unfold advance
  dsimp only
  split
  · rename_i h
    simp only [h, true_and, Option.some.injEq]
    exact eq_comm
  · rename_i h
    simp [h]

theorem commitLoop_succ (m : TxManager) (txId : TxId) (rounds : Nat) :
    m.commitLoop txId (rounds + 1) =
      match m.advance txId with
      | some m => .ok m
      | none => .error "timeout" := by
  induction rounds with
  | zero =>
    simp only [commitLoop]
  | succ rounds ih =>
    rw [commitLoop, ih]
    cases m.advance txId <;> rfl

/-- While nobody else moves the counter, `commit` is decided by its first round. -/
theorem commit_eq (m : TxManager) (txId : TxId) :
    m.commit txId =
      match m.advance txId with
      | some m => .ok m
      | none => .error "timeout" :=
  commitLoop_succ m txId spinLimit

end TxManager
end LightGraph
