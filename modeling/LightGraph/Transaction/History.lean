import LightGraph.Transaction.Commits

/-!
# Whole transactions, one commit after another

The coarser machine beside `Clients`: any number of transactions are open at a time, but a
commit is one step, `Transaction.commit` with all of its writes. That is what a program does
that never has two commits under way at once. `History.clients` is the same moment seen by the
finer machine, where nothing stands between its turn and its writes, and every step but the
commit is the finer machine's own.
-/

set_option autoImplicit false

namespace LightGraph

open Lib

structure History where
  db : Database
  /-- the write transactions that are open -/
  writers : List Transaction
  /-- the read transactions, opened at any point -/
  readers : List Transaction
  /-- the transactions committed so far, in order -/
  committed : List Transaction

inductive HistoryStep
  | beginRead
  | beginWrite
  | call (i : Nat) (c : TxCall)
  /-- the `i`-th write transaction commits, whole -/
  | commit (i : Nat)
  | rollback (i : Nat)

/-- The finer machine's step, for all but a commit. -/
def HistoryStep.fine : HistoryStep → Option ClientStep
  | .beginRead => some .beginRead
  | .beginWrite => some .beginWrite
  | .call i c => some (.call i c)
  | .commit _ => none
  | .rollback i => some (.rollback i)

namespace History

def start (db : Database) : History := { db, writers := [], readers := [], committed := [] }

/-- The clients at this moment: no commit is halfway. -/
def clients (h : History) : Clients :=
  { db := h.db, writers := h.writers, commits := [], readers := h.readers }

section Persistent
variable [Bincode Node] [Bincode Edge] [Bincode (Option Value)]

def step (h : History) : HistoryStep → Option History
  | .beginRead => some { h with readers := h.readers ++ [h.db.beginRead] }
  | .beginWrite =>
    let (tx, db) := h.db.beginWrite
    some { h with db, writers := h.writers ++ [tx] }
  | .call i c =>
    match h.writers[i]? with
    | none => none
    | some tx =>
      let (tx, db) := TxCall.apply (tx, h.db) c
      some { h with db, writers := h.writers.set i tx }
  | .commit i =>
    match h.writers[i]? with
    | none => none
    | some tx =>
      match tx.commit h.db with
      -- out of turn: the transaction stays open
      | .error _ => some h
      | .ok (tx, db) =>
        some { h with db, writers := h.writers.eraseIdx i, committed := h.committed ++ [tx] }
  | .rollback i =>
    match h.writers[i]? with
    | none => none
    | some tx =>
      match tx.rollback h.db with
      | none => none
      | some (_, db) => some { h with db, writers := h.writers.eraseIdx i }

/-! ## What a step can do -/

/-- Every open transaction is a write transaction that has neither committed nor rolled back. -/
def Open (h : History) : Prop := ∀ tx ∈ h.writers, tx.isWrite = true ∧ tx.committed = false

variable {h h' : History} {i : Nat}

/-- What a commit comes to on a transaction that is open. -/
theorem commit_open {tx : Transaction} (hw : tx.isWrite = true) (hc : tx.committed = false)
    (db : Database) : tx.commit db =
      match db.txManager.advance tx.txId with
      | none => .error "timeout"
      | some m => .ok ({ tx with committed := true },
          (db.withManager m).performAll tx.txId tx.writes) := by
  rw [Transaction.commit, if_neg (by simp [hw]), if_neg (by simp [hc]), TxManager.commit_eq]
  cases db.txManager.advance tx.txId <;> rfl

/-- A commit is whole, or it is out of turn and nothing. -/
theorem step_commit_inv (hopen : h.Open) (hs : h.step (.commit i) = some h') :
    h' = h ∨ ∃ tx m, h.writers[i]? = some tx ∧ h.db.txManager.advance tx.txId = some m ∧
      h' = { h with
        db := (h.db.withManager m).performAll tx.txId tx.writes
        writers := h.writers.eraseIdx i
        committed := h.committed ++ [{ tx with committed := true }] } := by
  simp only [step] at hs
  split at hs
  · exact absurd hs (by simp)
  · rename_i tx htx
    obtain ⟨hw, hc⟩ := hopen tx (List.mem_of_getElem? htx)
    rw [commit_open hw hc] at hs
    cases hadv : h.db.txManager.advance tx.txId with
    | none =>
      rw [hadv] at hs
      exact Or.inl (Option.some.inj hs).symm
    | some m =>
      rw [hadv] at hs
      exact Or.inr ⟨tx, m, htx, hadv, (Option.some.inj hs).symm⟩

theorem step_rollback_inv (hopen : h.Open) (hs : h.step (.rollback i) = some h') :
    ∃ tx m, h.writers[i]? = some tx ∧ h.db.txManager.advance tx.txId = some m ∧
      h' = { h with db := h.db.withManager m, writers := h.writers.eraseIdx i } := by
  simp only [step] at hs
  split at hs
  · exact absurd hs (by simp)
  · rename_i tx htx
    rw [Transaction.rollback, if_pos (hopen tx (List.mem_of_getElem? htx)).1,
      TxManager.rollback] at hs
    cases hadv : h.db.txManager.advance tx.txId with
    | none =>
      rw [hadv] at hs
      exact absurd hs (by simp)
    | some m =>
      rw [hadv] at hs
      exact ⟨tx, m, htx, hadv, (Option.some.inj hs).symm⟩

/-! ## The finer machine -/

/-- **Every step but a commit is the finer machine's**, and commits nothing. -/
theorem step_fine (hopen : h.Open) {a : HistoryStep} {b : ClientStep} (hb : a.fine = some b)
    (hs : h.step a = some h') :
    h.clients.step b = some h'.clients ∧ h'.committed = h.committed := by
  cases a with
  | beginRead =>
    obtain rfl := Option.some.inj hb
    obtain rfl := Option.some.inj hs
    exact ⟨rfl, rfl⟩
  | beginWrite =>
    obtain rfl := Option.some.inj hb
    obtain rfl := Option.some.inj hs
    exact ⟨rfl, rfl⟩
  | call i c =>
    obtain rfl := Option.some.inj hb
    simp only [step] at hs
    split at hs
    · exact absurd hs (by simp)
    · rename_i tx htx
      obtain rfl := Option.some.inj hs
      refine ⟨?_, rfl⟩
      simp only [Clients.step, clients, htx]
  | commit i => exact absurd hb (by simp [HistoryStep.fine])
  | rollback i =>
    obtain rfl := Option.some.inj hb
    obtain ⟨tx, m, htx, hadv, rfl⟩ := step_rollback_inv hopen hs
    refine ⟨?_, rfl⟩
    simp only [Clients.step, clients, htx, hadv]

/-- A commit is its turn and its writes, one after the other. -/
theorem step_commit_fine (hopen : h.Open) (hs : h.step (.commit i) = some h') :
    h' = h ∨ ∃ steps s, run Clients.step h.clients steps = some s ∧ s.db = h'.db := by
  rcases step_commit_inv hopen hs with rfl | ⟨tx, m, htx, hadv, rfl⟩
  · exact Or.inl rfl
  · obtain ⟨hw, hc⟩ := hopen tx (List.mem_of_getElem? htx)
    have hcommit := commit_open hw hc h.db
    rw [hadv] at hcommit
    obtain ⟨s, hrun, hdb⟩ := Clients.alone (s := h.clients) htx ⟨hw, hc⟩ hcommit
    exact Or.inr ⟨_, s, hrun, hdb⟩

end Persistent
end History
end LightGraph
