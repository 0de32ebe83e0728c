import LightGraph.Lib.Machine
import LightGraph.Transaction.Database

/-!
# Many clients at once

One database and the transactions of any number of threads. A step is what one thread does
between two points where others can be seen: a begin, a call that fills a buffer, the turn of a
commit at the ticket lock, **one** store write of its phase 2, a rollback. A commit or rollback
whose turn it is not reads the counter and nothing more, so a round that fails is no step.

`Clients.alone` says that nothing was lost by cutting a commit into steps: taken one after the
other they are `Transaction.commit`.
-/

set_option autoImplicit false

namespace LightGraph

open Lib

/-- A commit that has had its turn. -/
structure Commit where
  tx : Transaction
  /-- the writes of phase 2 that are done -/
  performed : List StoreWrite
  remaining : List StoreWrite
  whole : performed ++ remaining = tx.writes

namespace Commit

def start (tx : Transaction) : Commit := ⟨tx, [], tx.writes, rfl⟩

/-- The next write of phase 2, and what is left then. -/
def next (c : Commit) : Option (StoreWrite × Commit) :=
  match h : c.remaining with
  | [] => none
  | w :: rest =>
    some (w, ⟨c.tx, c.performed ++ [w], rest, by rw [← c.whole, h, List.append_assoc]; rfl⟩)

/-- The ticket. -/
abbrev txId (c : Commit) : TxId := c.tx.txId

theorem next_spec {c c' : Commit} {w : StoreWrite} (h : c.next = some (w, c')) :
    c'.tx = c.tx ∧ c'.performed = c.performed ++ [w] ∧ c.remaining = w :: c'.remaining := by
  unfold next at h
  split at h
  · exact absurd h (by simp)
  · rename_i w' rest hrest
    simp only [Option.some.injEq, Prod.mk.injEq] at h
    obtain ⟨rfl, rfl⟩ := h
    exact ⟨rfl, rfl, hrest⟩

theorem next_of_remaining {c : Commit} {w : StoreWrite} {rest : List StoreWrite}
    (h : c.remaining = w :: rest) : ∃ c', c.next = some (w, c') ∧ c'.remaining = rest := by
  unfold next
  split
  · rename_i hnil
    rw [h] at hnil
    exact absurd hnil (by simp)
  · rename_i w' rest' hcons
    rw [h] at hcons
    obtain ⟨rfl, rfl⟩ := List.cons.inj hcons
    exact ⟨_, rfl, rfl⟩

end Commit

structure Clients where
  db : Database
  /-- the write transactions under way, not yet at their turn -/
  writers : List Transaction
  /-- the commits that have had their turn, in the order of their turns -/
  commits : List Commit
  readers : List Transaction

/-- One step of one client. -/
inductive ClientStep
  | beginRead
  | beginWrite
  /-- a call on the `i`-th write transaction -/
  | call (i : Nat) (c : TxCall)
  /-- the `i`-th write transaction commits and it is its turn -/
  | turn (i : Nat)
  /-- the `i`-th commit performs its next write -/
  | write (i : Nat)
  | rollback (i : Nat)

namespace Clients

/-- A database nobody uses. -/
def start (db : Database) : Clients := { db, writers := [], commits := [], readers := [] }

section Persistent
variable [Bincode Node] [Bincode Edge] [Bincode (Option Value)]

def step (s : Clients) : ClientStep → Option Clients
  | .beginRead => some { s with readers := s.readers ++ [s.db.beginRead] }
  | .beginWrite =>
    let (tx, db) := s.db.beginWrite
    some { s with db, writers := s.writers ++ [tx] }
  | .call i c =>
    match s.writers[i]? with
    | none => none
    | some tx =>
      let (tx, db) := TxCall.apply (tx, s.db) c
      some { s with db, writers := s.writers.set i tx }
  | .turn i =>
    match s.writers[i]? with
    | none => none
    | some tx =>
      match s.db.txManager.advance tx.txId with
      | none => none
      | some m =>
        some { s with
          db := s.db.withManager m
          writers := s.writers.eraseIdx i
          commits := s.commits ++ [Commit.start { tx with committed := true }] }
  | .write i =>
    match s.commits[i]? with
    | none => none
    | some c =>
      match c.next with
      | none => none
      | some (w, c') =>
        some { s with db := s.db.perform c.txId w, commits := s.commits.set i c' }
  | .rollback i =>
    match s.writers[i]? with
    | none => none
    | some tx =>
      match s.db.txManager.advance tx.txId with
      | none => none
      | some m => some { s with db := s.db.withManager m, writers := s.writers.eraseIdx i }

/-! ## What a step can do -/

variable {s s' : Clients} {i : Nat}

theorem step_call_inv {c : TxCall} (h : s.step (.call i c) = some s') :
    ∃ tx, s.writers[i]? = some tx ∧
      s' = { s with
        db := (TxCall.apply (tx, s.db) c).2
        writers := s.writers.set i (TxCall.apply (tx, s.db) c).1 } := by
  simp only [step] at h
  split at h
  · exact absurd h (by simp)
  · rename_i tx htx
    exact ⟨tx, htx, (Option.some.inj h).symm⟩

theorem step_turn_inv (h : s.step (.turn i) = some s') :
    ∃ tx m, s.writers[i]? = some tx ∧ s.db.txManager.advance tx.txId = some m ∧
      s' = { s with
        db := s.db.withManager m
        writers := s.writers.eraseIdx i
        commits := s.commits ++ [Commit.start { tx with committed := true }] } := by
  simp only [step] at h
  split at h
  · exact absurd h (by simp)
  · rename_i tx htx
    split at h
    · exact absurd h (by simp)
    · rename_i m hm
      exact ⟨tx, m, htx, hm, (Option.some.inj h).symm⟩

theorem step_write_inv (h : s.step (.write i) = some s') :
    ∃ c w c', s.commits[i]? = some c ∧ c.next = some (w, c') ∧
      s' = { s with db := s.db.perform c.txId w, commits := s.commits.set i c' } := by
  simp only [step] at h
  split at h
  · exact absurd h (by simp)
  · rename_i c hc
    split at h
    · exact absurd h (by simp)
    · rename_i w c' hnext
      exact ⟨c, w, c', hc, hnext, (Option.some.inj h).symm⟩

theorem step_rollback_inv (h : s.step (.rollback i) = some s') :
    ∃ tx m, s.writers[i]? = some tx ∧ s.db.txManager.advance tx.txId = some m ∧
      s' = { s with db := s.db.withManager m, writers := s.writers.eraseIdx i } := by
  simp only [step] at h
  split at h
  · exact absurd h (by simp)
  · rename_i tx htx
    split at h
    · exact absurd h (by simp)
    · rename_i m hm
      exact ⟨tx, m, htx, hm, (Option.some.inj h).symm⟩

/-! ## One commit, nobody else -/

/-- The rest of a phase 2, write by write. -/
theorem run_writes (rest : List StoreWrite) : ∀ {s : Clients} {i : Nat} {c : Commit},
    s.commits[i]? = some c → c.remaining = rest →
    ∃ c', run step s (List.replicate rest.length (.write i))
        = some { s with
            db := s.db.performAll c.txId rest
            commits := s.commits.set i c' } ∧
      c'.tx = c.tx ∧ c'.remaining = [] := by
  induction rest with
  | nil =>
    intro s i c hc hrem
    obtain ⟨hi, rfl⟩ := List.getElem?_eq_some_iff.mp hc
    refine ⟨s.commits[i], ?_, rfl, hrem⟩
    rw [List.set_getElem_self]
    rfl
  | cons w rest ih =>
    intro s i c hc hrem
    obtain ⟨c', hnext, hrem'⟩ := Commit.next_of_remaining hrem
    have htx := (Commit.next_spec hnext).1
    have hstep : s.step (.write i) =
        some { s with db := s.db.perform c.txId w, commits := s.commits.set i c' } := by
      simp only [step, hc, hnext]
    have hi := (List.getElem?_eq_some_iff.mp hc).1
    obtain ⟨d, hrun, hdtx, hdone⟩ := ih (s := { s with
      db := s.db.perform c.txId w, commits := s.commits.set i c' })
      (List.getElem?_set_self hi) hrem'
    refine ⟨d, ?_, hdtx.trans htx, hdone⟩
    rw [List.length_cons, List.replicate_succ, run_cons_of_step hstep, hrun, List.set_set,
      Commit.txId, htx]
    rfl

/-- **A commit is its steps.** -/
theorem alone {tx tx' : Transaction} {db : Database} (hi : s.writers[i]? = some tx)
    (hopen : tx.isWrite = true ∧ tx.committed = false) (h : tx.commit s.db = .ok (tx', db)) :
    ∃ s', run step s (.turn i :: List.replicate tx.writes.length (.write s.commits.length))
      = some s' ∧ s'.db = db := by
  simp only [Transaction.commit, hopen.1, hopen.2, TxManager.commit_eq, Bool.not_true,
    Bool.false_eq_true, if_false] at h
  cases hm : s.db.txManager.advance tx.txId with
  | none =>
    rw [hm] at h
    exact absurd h (by simp)
  | some m =>
    simp only [hm, Except.ok.injEq, Prod.mk.injEq] at h
    have hstep : s.step (.turn i) = some { s with
        db := s.db.withManager m
        writers := s.writers.eraseIdx i
        commits := s.commits ++ [Commit.start { tx with committed := true }] } := by
      simp only [step, hi, hm]
    rw [run_cons_of_step hstep]
    obtain ⟨c', hrun, -⟩ := run_writes tx.writes (s := { s with
        db := s.db.withManager m
        writers := s.writers.eraseIdx i
        commits := s.commits ++ [Commit.start { tx with committed := true }] })
      (i := s.commits.length) (c := Commit.start { tx with committed := true }) (by simp) rfl
    exact ⟨_, hrun, h.2⟩

end Persistent
end Clients
end LightGraph
