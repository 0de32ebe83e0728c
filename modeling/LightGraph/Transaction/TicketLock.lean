import LightGraph.Lib.Machine
import LightGraph.Transaction.TxManager

/-!
# The ticket lock, load by load and store by store

`TxManager.advance` takes the counter and moves it in one piece. The code does not: a commit
loads `committed_tx_id`, compares, and stores in a second access, and between the two any other
thread may run. Here every access to one of the two atomics is a step of its own, for any
number of threads; a thread that has a ticket is the ticket.

A ticket is held from the `fetch_add` on, gets its snapshot from a second load
(`Database::begin_write`), and is in a commit, in a rollback, before the store that ends either,
or finished. A commit that gives up (`Err("timeout")`) leaves the ticket held.
-/

set_option autoImplicit false

namespace LightGraph

open Lib

/-- Where the thread that holds a ticket stands. -/
inductive TicketPc
  /-- in neither `commit` nor `rollback` -/
  | held
  /-- in the loop of `commit`, after `spins` failed rounds -/
  | committing (spins : Nat)
  /-- in the loop of `rollback` -/
  | rollingBack
  /-- the load has found our turn, the store is to come -/
  | storing
  | finished
  deriving DecidableEq

structure Ticket where
  txId : TxId
  /-- what `latest_committed` returned for it -/
  snapshot : Option TxId
  pc : TicketPc
  deriving DecidableEq

structure TicketLock where
  manager : TxManager
  /-- in the order they were handed out -/
  tickets : List Ticket
  /-- what the calls of `begin_read` returned, oldest first -/
  snapshots : List TxId
  deriving DecidableEq

/-- One access to an atomic, or the entry of a call. -/
inductive TicketStep
  | beginRead
  | beginWrite
  /-- the second half of `Database::begin_write` -/
  | latestCommitted (i : Nat)
  | commit (i : Nat)
  /-- one round of the loop of `commit` -/
  | commitLoad (i : Nat)
  | rollback (i : Nat)
  /-- one round of the loop of `rollback` -/
  | rollbackLoad (i : Nat)
  | store (i : Nat)

namespace TicketLock

def start : TicketLock := { manager := TxManager.new, tickets := [], snapshots := [] }

/-- The `i`-th ticket with its thread moved on. -/
def moveTo (s : TicketLock) (i : Nat) (k : Ticket) (pc : TicketPc) : TicketLock :=
  { s with tickets := s.tickets.set i { k with pc } }

def step (s : TicketLock) : TicketStep → Option TicketLock
  | .beginRead => some { s with snapshots := s.snapshots ++ [s.manager.beginRead] }
  | .beginWrite =>
    let (txId, manager) := s.manager.beginWrite
    some { s with manager, tickets := s.tickets ++ [{ txId, snapshot := none, pc := .held }] }
  | .latestCommitted i =>
    match s.tickets[i]? with
    | none => none
    | some k =>
      if k.pc = .held then
        some { s with
          tickets := s.tickets.set i { k with snapshot := some s.manager.latestCommitted } }
      else none
  | .commit i =>
    match s.tickets[i]? with
    | none => none
    | some k => if k.pc = .held then some (s.moveTo i k (.committing 0)) else none
  | .commitLoad i =>
    match s.tickets[i]? with
    | none => none
    | some k =>
      match k.pc with
      | .committing spins =>
        if s.manager.committedTxId = k.txId - 1 then some (s.moveTo i k .storing)
        else if spins + 1 > TxManager.spinLimit then some (s.moveTo i k .held)
        else some (s.moveTo i k (.committing (spins + 1)))
      | _ => none
  | .rollback i =>
    match s.tickets[i]? with
    | none => none
    | some k => if k.pc = .held then some (s.moveTo i k .rollingBack) else none
  | .rollbackLoad i =>
    match s.tickets[i]? with
    | none => none
    | some k =>
      if k.pc = .rollingBack then
        if s.manager.committedTxId = k.txId - 1 then some (s.moveTo i k .storing) else some s
      else none
  | .store i =>
    match s.tickets[i]? with
    | none => none
    | some k =>
      if k.pc = .storing then
        some { s.moveTo i k .finished with manager := { s.manager with committedTxId := k.txId } }
      else none

/-! ## What a step can do -/

/-- A ticket's thread goes from `k` to `k'` and touches no atomic but to load it. -/
structure Moves (s : TicketLock) (k k' : Ticket) : Prop where
  txId : k'.txId = k.txId
  running : k.pc ≠ .finished
  running' : k'.pc ≠ .finished
  turn : k'.pc = .storing → k.pc ≠ .storing ∧ s.manager.committedTxId = k.txId - 1
  snapshot : k'.snapshot = k.snapshot ∨ k'.snapshot = some s.manager.committedTxId

theorem moves_moveTo {s s' : TicketLock} {i : Nat} {k : Ticket} {pc : TicketPc}
    (hk : s.tickets[i]? = some k) (hrun : k.pc ≠ .finished) (hrun' : pc ≠ .finished)
    (hturn : pc = .storing → k.pc ≠ .storing ∧ s.manager.committedTxId = k.txId - 1)
    (h : some (s.moveTo i k pc) = some s') :
    ∃ i k k', s.tickets[i]? = some k ∧ s.Moves k k' ∧
      s' = { s with tickets := s.tickets.set i k' } :=
  ⟨i, k, { k with pc }, hk, ⟨rfl, hrun, hrun', hturn, Or.inl rfl⟩, (Option.some.inj h).symm⟩

/-- **Everything a step does**: it reads, hands out a ticket, moves a thread on, or stores. -/
theorem step_cases {s s' : TicketLock} {a : TicketStep} (h : s.step a = some s') :
    s' = { s with snapshots := s.snapshots ++ [s.manager.committedTxId] } ∨
    s' = { s with
      manager := s.manager.beginWrite.2
      tickets := s.tickets ++ [⟨s.manager.nextTxId, none, .held⟩] } ∨
    (∃ i k k', s.tickets[i]? = some k ∧ s.Moves k k' ∧
      s' = { s with tickets := s.tickets.set i k' }) ∨
    (∃ i k, s.tickets[i]? = some k ∧ k.pc = .storing ∧
      s' = { s with
        manager := { s.manager with committedTxId := k.txId }
        tickets := s.tickets.set i { k with pc := .finished } }) := by
  cases a with
  | beginRead => exact Or.inl (Option.some.inj h).symm
  | beginWrite => exact Or.inr (Or.inl (Option.some.inj h).symm)
  | latestCommitted i =>
    simp only [step] at h
    split at h
    · exact absurd h (by simp)
    · rename_i k hk
      split at h
      · rename_i hpc
        refine Or.inr (Or.inr (Or.inl ⟨i, k, _, hk, ?_, (Option.some.inj h).symm⟩))
        exact ⟨rfl, by simp [hpc], by simp [hpc], by simp [hpc], Or.inr rfl⟩
      · exact absurd h (by simp)
  | commit i =>
    simp only [step] at h
    split at h
    · exact absurd h (by simp)
    · rename_i k hk
      split at h
      · rename_i hpc
        exact Or.inr (Or.inr (Or.inl
          (moves_moveTo hk (by simp [hpc]) (by simp) (by simp) h)))
      · exact absurd h (by simp)
  | commitLoad i =>
    simp only [step] at h
    split at h
    · exact absurd h (by simp)
    · rename_i k hk
      split at h
      · rename_i spins hpc
        refine Or.inr (Or.inr (Or.inl ?_))
        have hrun : k.pc ≠ .finished := by simp [hpc]
        split at h
        · rename_i hturn
          exact moves_moveTo hk hrun (by simp) (fun _ => ⟨by simp [hpc], hturn⟩) h
        · split at h
          · exact moves_moveTo hk hrun (by simp) (by simp) h
          · exact moves_moveTo hk hrun (by simp) (by simp) h
      · exact absurd h (by simp)
  | rollback i =>
    simp only [step] at h
    split at h
    · exact absurd h (by simp)
    · rename_i k hk
      split at h
      · rename_i hpc
        exact Or.inr (Or.inr (Or.inl
          (moves_moveTo hk (by simp [hpc]) (by simp) (by simp) h)))
      · exact absurd h (by simp)
  | rollbackLoad i =>
    simp only [step] at h
    split at h
    · exact absurd h (by simp)
    · rename_i k hk
      split at h
      · rename_i hpc
        refine Or.inr (Or.inr (Or.inl ?_))
        have hrun : k.pc ≠ .finished := by simp [hpc]
        split at h
        · rename_i hturn
          exact moves_moveTo hk hrun (by simp) (fun _ => ⟨by simp [hpc], hturn⟩) h
        · -- a round that fails leaves the ticket where it is
          refine ⟨i, k, k, hk, ⟨rfl, hrun, hrun, by simp [hpc], Or.inl rfl⟩, ?_⟩
          obtain ⟨hi, hget⟩ := List.getElem?_eq_some_iff.mp hk
          rw [← hget, List.set_getElem_self hi]
          exact (Option.some.inj h).symm
      · exact absurd h (by simp)
  | store i =>
    simp only [step] at h
    split at h
    · exact absurd h (by simp)
    · rename_i k hk
      split at h
      · rename_i hpc
        exact Or.inr (Or.inr (Or.inr ⟨i, k, hk, hpc, (Option.some.inj h).symm⟩))
      · exact absurd h (by simp)

/-! ## One thread, nobody else -/

variable {s : TicketLock} {i : Nat} {k : Ticket}

theorem moveTo_self (hk : s.tickets[i]? = some k) : s.moveTo i k k.pc = s := by
  obtain ⟨hi, hget⟩ := List.getElem?_eq_some_iff.mp hk
  have hset : s.tickets.set i k = s.tickets := by
    rw [← hget, List.set_getElem_self hi]
  rw [moveTo, hset]

theorem moveTo_get (hk : s.tickets[i]? = some k) (pc : TicketPc) :
    (s.moveTo i k pc).tickets[i]? = some { k with pc } :=
  List.getElem?_set_self (List.getElem?_eq_some_iff.mp hk).1

theorem moveTo_moveTo (pc pc' : TicketPc) :
    (s.moveTo i k pc).moveTo i { k with pc } pc' = s.moveTo i k pc' := by
  simp [moveTo]

/-- **A commit on its turn is its three accesses.** -/
theorem commit_alone (hk : s.tickets[i]? = some k) (hpc : k.pc = .held) {m : TxManager}
    (h : s.manager.commit k.txId = .ok m) :
    run step s [.commit i, .commitLoad i, .store i]
      = some { s.moveTo i k .finished with manager := m } := by
  rw [TxManager.commit_eq] at h
  cases hadv : s.manager.advance k.txId with
  | none =>
    rw [hadv] at h
    exact absurd h (by simp)
  | some m' =>
    rw [hadv, Except.ok.injEq] at h
    subst h
    obtain ⟨hturn, rfl⟩ := TxManager.advance_eq_some_iff.mp hadv
    have hcommit : s.step (.commit i) = some (s.moveTo i k (.committing 0)) := by
      simp only [step, hk, hpc, if_true]
    have hload : (s.moveTo i k (.committing 0)).step (.commitLoad i)
        = some (s.moveTo i k .storing) := by
      simp only [step, moveTo_get hk, moveTo_moveTo]
      rw [if_pos (show (s.moveTo i k _).manager.committedTxId = _ from hturn)]
    have hstore : (s.moveTo i k .storing).step (.store i) = some { s.moveTo i k .finished with
        manager := { s.manager with committedTxId := k.txId } } := by
      simp only [step, moveTo_get hk, moveTo_moveTo, if_true]
      rfl
    rw [run_cons_of_step hcommit, run_cons_of_step hload, run_cons_of_step hstore, run_nil]

/-- The rounds of a commit that is out of turn, from any of them to the last. -/
theorem run_commitLoad (hk : s.tickets[i]? = some k)
    (hturn : s.manager.committedTxId ≠ k.txId - 1) (rounds : Nat) : ∀ spins,
    spins + rounds = TxManager.spinLimit →
    run step (s.moveTo i k (.committing spins)) (List.replicate (rounds + 1) (.commitLoad i))
      = some (s.moveTo i k .held) := by
  have hload : ∀ spins, (s.moveTo i k (.committing spins)).step (.commitLoad i) =
      if spins + 1 > TxManager.spinLimit then some (s.moveTo i k .held)
      else some (s.moveTo i k (.committing (spins + 1))) := by
    intro spins
    simp only [step, moveTo_get hk, moveTo_moveTo]
    rw [if_neg (show ¬ (s.moveTo i k _).manager.committedTxId = _ from hturn)]
  induction rounds with
  | zero =>
    intro spins hspins
    have hlast := hload spins
    rw [if_pos (by omega)] at hlast
    exact run_cons_of_step hlast
  | succ rounds ih =>
    intro spins hspins
    have hnext := hload spins
    rw [if_neg (by omega)] at hnext
    rw [List.replicate_succ, run_cons_of_step hnext]
    exact ih (spins + 1) (by omega)

/-- **A commit that gives up** has loaded the counter once more than the limit says, and has
changed nothing. -/
theorem timeout_alone (hk : s.tickets[i]? = some k) (hpc : k.pc = .held)
    (h : s.manager.commit k.txId = .error "timeout") :
    run step s (.commit i :: List.replicate (TxManager.spinLimit + 1) (.commitLoad i))
      = some s := by
  rw [TxManager.commit_eq] at h
  cases hadv : s.manager.advance k.txId with
  | some m =>
    rw [hadv] at h
    exact absurd h (by simp)
  | none =>
    have hturn : s.manager.committedTxId ≠ k.txId - 1 := by
      intro heq
      rw [TxManager.advance_eq_some_iff.mpr ⟨heq, rfl⟩] at hadv
      exact absurd hadv (by simp)
    have hcommit : s.step (.commit i) = some (s.moveTo i k (.committing 0)) := by
      simp only [step, hk, hpc, if_true]
    rw [run_cons_of_step hcommit, run_commitLoad hk hturn _ 0 (Nat.zero_add _), ← hpc,
      moveTo_self hk]

end TicketLock
end LightGraph
