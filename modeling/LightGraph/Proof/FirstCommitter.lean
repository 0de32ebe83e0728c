import LightGraph.Lib.Progress
import LightGraph.Lib.Threads
import LightGraph.Proof.CommitOrder
import Mathlib.Data.List.Perm.Subperm

/-!
# First committer wins

The header of the transaction layer promises first-committer-wins: of two write transactions that
overlap and change the same node, one commit fails. `commit` has a turn to wait for and no conflict
to look for, so both can succeed, and whoever writes last stays. What is promised then holds of a
set of transactions only where there is nothing to promise: where no two of them change the same
node. Any two that do have an interleaving in which both commits return.

Overlap is about when snapshots were taken. `Watched` keeps that beside the clients: for each
transaction, how many commits had had their turn. `begin_write` draws its ticket in one atomic step
and loads its snapshot in another, so the load is a step of its own here. The snapshot ids say the
same as the counts as long as the dispenser does not run over (`snapshot_covers_iff`). `Workload`
runs given transactions: who moves when is open, what each one does is not.
-/

set_option autoImplicit false

namespace LightGraph

open Lib
open scoped List

/-- The node whose labels a write updates, or which it deletes. -/
def StoreWrite.changed : StoreWrite → Option NodeId
  | .updateLabels id _ => some id
  | .deleteNode id => some id
  | _ => none

/-- The nodes whose labels a transaction updates, or which it deletes. -/
def Transaction.changedNodes (tx : Transaction) : List NodeId :=
  tx.nodeUpdates.map Prod.fst ++ tx.nodeDeletes

def Transaction.Conflicts (tx tx' : Transaction) : Prop :=
  ∃ id, id ∈ tx.changedNodes ∧ id ∈ tx'.changedNodes

theorem Transaction.Conflicts.symm {tx tx' : Transaction} (h : tx.Conflicts tx') :
    tx'.Conflicts tx := by
  obtain ⟨id, hid, hid'⟩ := h
  exact ⟨id, hid', hid⟩

theorem Transaction.mem_changedNodes {tx : Transaction} {w : StoreWrite} {id : NodeId}
    (hw : w ∈ tx.writes) (h : w.changed = some id) : id ∈ tx.changedNodes := by
  simp only [Transaction.writes, List.mem_append, List.mem_map] at hw
  obtain ((((⟨e, -, rfl⟩ | ⟨e, he, rfl⟩) | ⟨e, he, rfl⟩) | ⟨e, -, rfl⟩) | ⟨e, -, rfl⟩) |
    ⟨e, -, rfl⟩ := hw
  · exact absurd h (by simp [StoreWrite.changed])
  · obtain rfl : e.1 = id := by simpa [StoreWrite.changed] using h
    exact List.mem_append_left _ (List.mem_map_of_mem he)
  · obtain rfl : e = id := by simpa [StoreWrite.changed] using h
    exact List.mem_append_right _ he
  · exact absurd h (by simp [StoreWrite.changed])
  · exact absurd h (by simp [StoreWrite.changed])
  · exact absurd h (by simp [StoreWrite.changed])

/-- The node whose labels a call updates, or which it deletes. -/
def TxCall.changed : TxCall → Option NodeId
  | .updateNodeLabels id _ => some id
  | .deleteNode id => some id
  | _ => none

/-- The write set of a transaction: the nodes whose labels it updates or which it deletes, if it is
to commit. -/
def TxScript.changedNodes (script : TxScript) : List NodeId :=
  if script.commits then script.calls.filterMap TxCall.changed else []

/-- The buffers hold what the calls have put there. -/
theorem TxCall.mem_changedNodes_apply (tx : Transaction) (db : Database) (c : TxCall)
    (id : NodeId) : id ∈ (TxCall.apply (tx, db) c).1.changedNodes ↔
      id ∈ tx.changedNodes ∨ c.changed = some id := by
  cases c with
  | createNode labels propsRow => exact (or_iff_left (by simp [TxCall.changed])).symm
  | createEdge src dst etype propsRow => exact (or_iff_left (by simp [TxCall.changed])).symm
  | deleteEdge id => exact (or_iff_left (by simp [TxCall.changed])).symm
  | setProp label prop row value => exact (or_iff_left (by simp [TxCall.changed])).symm
  | updateNodeLabels other labels =>
    simp only [TxCall.apply, Transaction.updateNodeLabels, Transaction.changedNodes,
      List.map_append, List.map_cons, List.map_nil, List.mem_append, List.mem_singleton,
      TxCall.changed, Option.some.injEq]
    rw [or_right_comm, eq_comm]
  | deleteNode other =>
    simp only [TxCall.apply, Transaction.deleteNode, Transaction.changedNodes, List.mem_append,
      List.mem_singleton, TxCall.changed, Option.some.injEq]
    rw [← or_assoc, eq_comm]

namespace Clients

variable [Bincode Node] [Bincode Edge] [Bincode (Option Value)]

/-- Commits only grow, and only by a turn. -/
theorem step_txs {s t : Clients} {a : ClientStep} (hs : s.step a = some t) :
    (∀ i, a ≠ .turn i) ∧ t.commits.map (·.tx) = s.commits.map (·.tx) ∨
    ∃ i tx, a = .turn i ∧ s.writers[i]? = some tx ∧ t.writers = s.writers.eraseIdx i ∧
      t.commits = s.commits ++ [Commit.start { tx with committed := true }] := by
  cases a with
  | beginRead =>
    obtain rfl := Option.some.inj hs
    exact Or.inl ⟨by simp, rfl⟩
  | beginWrite =>
    obtain rfl := Option.some.inj hs
    exact Or.inl ⟨by simp, rfl⟩
  | call i c =>
    obtain ⟨tx, -, rfl⟩ := step_call_inv hs
    exact Or.inl ⟨by simp, rfl⟩
  | turn i =>
    obtain ⟨tx, m, hi, -, rfl⟩ := step_turn_inv hs
    exact Or.inr ⟨i, tx, rfl, hi, rfl, rfl⟩
  | write i =>
    obtain ⟨c, w, c', hi, hnext, rfl⟩ := step_write_inv hs
    exact Or.inl ⟨by simp, map_set_same hi (Commit.next_spec hnext).1⟩
  | rollback i =>
    obtain ⟨tx, m, -, -, rfl⟩ := step_rollback_inv hs
    exact Or.inl ⟨by simp, rfl⟩

end Clients

/-- Clients, and when each write transaction took its snapshot: how many commits had had their
turn by then. -/
structure Watched where
  clients : Clients
  /-- for the transactions under way -/
  before : List Nat
  /-- for the commits -/
  seen : List Nat

inductive WatchedStep
  | client (a : ClientStep)
  /-- the `i`-th write transaction, not used yet, loads its snapshot -/
  | takeSnapshot (i : Nat)

namespace Watched

def start (db : Database) : Watched := { clients := Clients.start db, before := [], seen := [] }

/-- The transactions whose commit had its turn, in the order of their turns. After its turn
nothing makes a commit fail. -/
def committed (s : Watched) : List Transaction := s.clients.commits.map (·.tx)

/-- Each of the two commits took its snapshot before the turn of the other. -/
def Overlap (s : Watched) (i j : Nat) : Prop :=
  ∃ m n, s.seen[i]? = some m ∧ s.seen[j]? = some n ∧ m ≤ j ∧ n ≤ i

/-- Of two commits that overlap and change the same node, at most one returns `Ok`: behind its
turn a commit has its writes to do and nothing to fail at. -/
def AtMostOne (s : Watched) : Prop :=
  ∀ i j c d, i ≠ j → s.clients.commits[i]? = some c → s.clients.commits[j]? = some d →
    c.remaining = [] → d.remaining = [] → s.Overlap i j → ¬ c.tx.Conflicts d.tx

/-- The next write of the `i`-th commit changes a node that another commit has changed only if that
one had its turn before the snapshot of this one. -/
def OverwritesSeen (s : Watched) (i : Nat) : Prop :=
  ∀ c w c' m id, s.clients.commits[i]? = some c → c.next = some (w, c') →
    s.seen[i]? = some m → w.changed = some id →
    ∀ j d w', j ≠ i → s.clients.commits[j]? = some d → w' ∈ d.performed →
      w'.changed = some id → j < m

section Persistent
variable [Bincode Node] [Bincode Edge] [Bincode (Option Value)]

/-- The counts after a step of a client. -/
def follow (s : Watched) (clients : Clients) : ClientStep → Watched
  | .beginWrite => { s with clients, before := s.before ++ [s.clients.commits.length] }
  | .turn i =>
    { clients, before := s.before.eraseIdx i, seen := s.seen ++ [s.before.getD i 0] }
  | .rollback i => { s with clients, before := s.before.eraseIdx i }
  | _ => { s with clients }

def step (s : Watched) : WatchedStep → Option Watched
  | .client a =>
    match s.clients.step a with
    | none => none
    | some clients => some (s.follow clients a)
  | .takeSnapshot i =>
    match s.clients.writers[i]? with
    | none => none
    | some tx =>
      if tx.writes.isEmpty then
        let snapshot := s.clients.db.txManager.latestCommitted
        some { s with
          clients := { s.clients with writers := s.clients.writers.set i { tx with snapshot } }
          before := s.before.set i s.clients.commits.length }
      else none

/-! ## What a step does to the commits -/

variable {s t : Watched}

theorem step_client_inv {a : ClientStep} (hs : s.step (.client a) = some t) :
    ∃ clients, s.clients.step a = some clients ∧ t = s.follow clients a := by
  simp only [step] at hs
  split at hs
  · exact absurd hs (by simp)
  · rename_i clients hc
    exact ⟨clients, hc, (Option.some.inj hs).symm⟩

theorem step_takeSnapshot_inv {i : Nat} (hs : s.step (.takeSnapshot i) = some t) :
    ∃ tx, s.clients.writers[i]? = some tx ∧ tx.writes = [] ∧
      t = { s with
        clients := { s.clients with
          writers := s.clients.writers.set i
            { tx with snapshot := s.clients.db.txManager.latestCommitted } }
        before := s.before.set i s.clients.commits.length } := by
  simp only [step] at hs
  split at hs
  · exact absurd hs (by simp)
  · rename_i tx htx
    split at hs
    · rename_i hempty
      exact ⟨tx, htx, List.isEmpty_iff.mp hempty, (Option.some.inj hs).symm⟩
    · exact absurd hs (by simp)

/-- The counts are in step with the lists they are about, and count commits that were there. -/
structure Parallel (s : Watched) : Prop where
  before_length : s.before.length = s.clients.writers.length
  seen_length : s.seen.length = s.clients.commits.length
  before_le : ∀ (m : Nat), m ∈ s.before → m ≤ s.clients.commits.length
  seen_le : ∀ (j m : Nat), s.seen[j]? = some m → m ≤ j

omit [Bincode Node] [Bincode Edge] [Bincode (Option Value)] in
/-- Steps that leave the commits as many as they were. -/
theorem Parallel.of_same (h : s.Parallel) (hseen : t.seen = s.seen)
    (hcommits : t.clients.commits.length = s.clients.commits.length)
    (hlength : t.before.length = t.clients.writers.length)
    (hbefore : ∀ m ∈ t.before, m ∈ s.before ∨ m = s.clients.commits.length) : t.Parallel := by
  refine ⟨hlength, ?_, fun m hm => ?_, ?_⟩
  · rw [hseen, hcommits]
    exact h.seen_length
  · rw [hcommits]
    rcases hbefore m hm with hm | rfl
    · exact h.before_le m hm
    · exact Nat.le_refl _
  · rw [hseen]
    exact h.seen_le

omit [Bincode Node] [Bincode Edge] [Bincode (Option Value)] in
theorem Parallel.start (db : Database) : (start db).Parallel := by
  refine ⟨rfl, rfl, fun m hm => absurd hm List.not_mem_nil, fun j m hm => ?_⟩
  exact absurd hm (by simp [Watched.start])

omit [Bincode Node] [Bincode Edge] [Bincode (Option Value)] in
theorem Parallel.before_of_writer (h : s.Parallel) {i : Nat} {tx : Transaction}
    (hi : s.clients.writers[i]? = some tx) :
    ∃ m, s.before[i]? = some m ∧ m ≤ s.clients.commits.length := by
  have hlt := (List.getElem?_eq_some_iff.mp hi).1
  rw [← h.before_length] at hlt
  exact ⟨s.before[i], List.getElem?_eq_getElem hlt, h.before_le _ (List.getElem_mem hlt)⟩

theorem Parallel.step {a : WatchedStep} (h : s.Parallel) (hs : s.step a = some t) :
    t.Parallel := by
  cases a with
  | client a =>
    obtain ⟨clients, hc, rfl⟩ := step_client_inv hs
    cases a with
    | beginRead =>
      obtain rfl := Option.some.inj hc
      exact h.of_same rfl rfl h.before_length fun m hm => Or.inl hm
    | beginWrite =>
      obtain rfl := Option.some.inj hc
      refine h.of_same rfl rfl ?_ fun m hm => ?_
      · simp only [follow, List.length_append, h.before_length, List.length_singleton]
      · rcases List.mem_append.mp hm with hm | hm
        · exact Or.inl hm
        · exact Or.inr (List.mem_singleton.mp hm)
    | call i c =>
      obtain ⟨tx, -, rfl⟩ := Clients.step_call_inv hc
      refine h.of_same rfl rfl ?_ fun m hm => Or.inl hm
      simp only [follow, List.length_set, h.before_length]
    | turn i =>
      obtain ⟨tx, m, hi, -, rfl⟩ := Clients.step_turn_inv hc
      obtain ⟨n, hn, hle⟩ := h.before_of_writer hi
      refine ⟨?_, ?_, fun k hk => ?_, fun j k hk => ?_⟩
      · simp only [follow, List.length_eraseIdx, h.before_length]
      · simp only [follow, List.length_append, h.seen_length, List.length_singleton]
      · simp only [follow, List.length_append, List.length_singleton] at hk ⊢
        exact Nat.le_succ_of_le (h.before_le k (List.mem_of_mem_eraseIdx hk))
      · simp only [follow, List.getD_eq_getElem?_getD, hn, Option.getD_some] at hk
        rcases getElem?_concat_eq_some.mp hk with hk | ⟨rfl, rfl⟩
        · exact h.seen_le j k hk
        · rw [h.seen_length]
          exact hle
    | write i =>
      obtain ⟨c, w, c', -, -, rfl⟩ := Clients.step_write_inv hc
      refine h.of_same rfl ?_ h.before_length fun m hm => Or.inl hm
      simp only [follow, List.length_set]
    | rollback i =>
      obtain ⟨tx, m, -, -, rfl⟩ := Clients.step_rollback_inv hc
      refine h.of_same rfl rfl ?_ fun m hm => Or.inl (List.mem_of_mem_eraseIdx hm)
      simp only [follow, List.length_eraseIdx, h.before_length]
  | takeSnapshot i =>
    obtain ⟨tx, hi, -, rfl⟩ := step_takeSnapshot_inv hs
    refine h.of_same rfl rfl ?_ fun m hm => List.mem_or_eq_of_mem_set hm
    rw [List.length_set, List.length_set, h.before_length]

theorem Parallel.step_committed {a : WatchedStep} (h : s.Parallel) (hs : s.step a = some t) :
    (∀ i, a ≠ .client (.turn i)) ∧ t.committed = s.committed ∧ t.seen = s.seen ∨
    ∃ i tx m, a = .client (.turn i) ∧ s.clients.writers[i]? = some tx ∧ s.before[i]? = some m ∧
      t.committed = s.committed ++ [{ tx with committed := true }] ∧ t.seen = s.seen ++ [m] := by
  cases a with
  | client a =>
    obtain ⟨clients, hc, rfl⟩ := step_client_inv hs
    rcases Clients.step_txs hc with ⟨hturn, htxs⟩ | ⟨i, tx, rfl, hi, -, hcommits⟩
    · refine Or.inl ⟨fun i ha => hturn i (WatchedStep.client.inj ha), ?_⟩
      cases a with
      | turn i => exact absurd rfl (hturn i)
      | beginRead => exact ⟨htxs, rfl⟩
      | beginWrite => exact ⟨htxs, rfl⟩
      | call i c => exact ⟨htxs, rfl⟩
      | write i => exact ⟨htxs, rfl⟩
      | rollback i => exact ⟨htxs, rfl⟩
    · obtain ⟨m, hm, -⟩ := h.before_of_writer hi
      refine Or.inr ⟨i, tx, m, rfl, hi, hm, ?_, ?_⟩
      · simp only [committed, follow, hcommits, List.map_append, List.map_cons, List.map_nil,
          Commit.start]
      · simp only [follow, List.getD_eq_getElem?_getD, hm, Option.getD_some]
  | takeSnapshot i =>
    obtain ⟨tx, -, -, rfl⟩ := step_takeSnapshot_inv hs
    exact Or.inl ⟨fun _ ha => absurd ha (by simp), rfl, rfl⟩

end Persistent
end Watched

/-! ## Given transactions -/

/-- A transaction under way: its script, and the calls it still has to make. -/
structure Job where
  script : TxScript
  todo : List TxCall

/-- Who of the given transactions is where. -/
structure Agenda where
  /-- beside the write transactions under way -/
  jobs : List Job
  /-- the scripts of the commits -/
  ended : List TxScript
  waiting : List TxScript

/-- One step of one of the given transactions, or of a reader. -/
inductive WorkloadStep
  | beginRead
  /-- the `k`-th of those that wait begins -/
  | beginWrite (k : Nat)
  | takeSnapshot (i : Nat)
  /-- the next call of the `i`-th that is under way -/
  | call (i : Nat)
  | turn (i : Nat)
  | write (i : Nat)
  | rollback (i : Nat)

/-- The step that is taken, and the agenda behind it. Only a script that commits comes to a turn,
with all its calls made. Any transaction can be dropped: its commit can have timed out. -/
def Agenda.next (g : Agenda) : WorkloadStep → Option (WatchedStep × Agenda)
  | .beginRead => some (.client .beginRead, g)
  | .beginWrite k =>
    match g.waiting[k]? with
    | none => none
    | some script =>
      some (.client .beginWrite,
        { g with jobs := g.jobs ++ [⟨script, script.calls⟩], waiting := g.waiting.eraseIdx k })
  | .takeSnapshot i => some (.takeSnapshot i, g)
  | .call i =>
    match g.jobs[i]? with
    | some ⟨script, c :: todo⟩ =>
      some (.client (.call i c), { g with jobs := g.jobs.set i ⟨script, todo⟩ })
    | _ => none
  | .turn i =>
    match g.jobs[i]? with
    | some ⟨script, []⟩ =>
      if script.commits then
        some (.client (.turn i),
          { g with jobs := g.jobs.eraseIdx i, ended := g.ended ++ [script] })
      else none
    | _ => none
  | .write i => some (.client (.write i), g)
  | .rollback i => some (.client (.rollback i), { g with jobs := g.jobs.eraseIdx i })

structure Workload where
  watched : Watched
  agenda : Agenda

namespace Workload

def start (db : Database) (scripts : List TxScript) : Workload :=
  { watched := Watched.start db, agenda := { jobs := [], ended := [], waiting := scripts } }

/-- A transaction has in its buffers what its script has it change. -/
structure Booked (scripts : List TxScript) (s : Workload) : Prop where
  jobs_length : s.agenda.jobs.length = s.watched.clients.writers.length
  ended_length : s.agenda.ended.length = s.watched.clients.commits.length
  filled : ∀ (i : Nat) (tx : Transaction) (job : Job), s.watched.clients.writers[i]? = some tx →
    s.agenda.jobs[i]? = some job →
    (∀ id ∈ tx.changedNodes, id ∈ job.script.calls.filterMap TxCall.changed) ∧
      job.todo ⊆ job.script.calls
  took : ∀ (i : Nat) (c : Commit) (script : TxScript), s.watched.clients.commits[i]? = some c →
    s.agenda.ended[i]? = some script → ∀ id ∈ c.tx.changedNodes, id ∈ script.changedNodes
  drawn : s.agenda.ended ++ s.agenda.jobs.map Job.script ++ s.agenda.waiting <+~ scripts

section Persistent
variable [Bincode Node] [Bincode Edge] [Bincode (Option Value)]

def step (s : Workload) (a : WorkloadStep) : Option Workload :=
  match s.agenda.next a with
  | none => none
  | some (b, agenda) =>
    match s.watched.step b with
    | none => none
    | some watched => some { watched, agenda }

variable {s t : Workload} {scripts : List TxScript}

theorem step_inv {a : WorkloadStep} (hs : s.step a = some t) :
    ∃ b, s.agenda.next a = some (b, t.agenda) ∧ s.watched.step b = some t.watched := by
  unfold step at hs
  split at hs
  · exact absurd hs (by simp)
  · rename_i b agenda hnext
    split at hs
    · exact absurd hs (by simp)
    · rename_i watched hstep
      obtain rfl := Option.some.inj hs
      exact ⟨b, hnext, hstep⟩

theorem step_of_next {a : WorkloadStep} {b : WatchedStep} {agenda : Agenda} {watched : Watched}
    (hnext : s.agenda.next a = some (b, agenda)) (hstep : s.watched.step b = some watched) :
    s.step a = some ⟨watched, agenda⟩ := by
  simp only [step, hnext, hstep]

/-! ## What is in the buffers -/

omit [Bincode Node] [Bincode Edge] [Bincode (Option Value)] in
theorem booked_start (db : Database) (scripts : List TxScript) :
    (start db scripts).Booked scripts := by
  refine ⟨rfl, rfl, fun i tx job hi => ?_, fun i c script hi => ?_, List.Subperm.refl _⟩
  · exact absurd hi (by simp [start, Watched.start, Clients.start])
  · exact absurd hi (by simp [start, Watched.start, Clients.start])

omit [Bincode Node] [Bincode Edge] [Bincode (Option Value)] in
/-- Steps that leave the buffers and the agenda as they are. -/
theorem Booked.of_same (h : s.Booked scripts) (hagenda : t.agenda = s.agenda)
    (hwriters : t.watched.clients.writers.map Transaction.changedNodes
      = s.watched.clients.writers.map Transaction.changedNodes)
    (hcommits : t.watched.clients.commits.map (·.tx) = s.watched.clients.commits.map (·.tx)) :
    t.Booked scripts := by
  refine ⟨?_, ?_, fun i tx job hi hj => ?_, fun i c script hi hj => ?_, ?_⟩
  · have hlength := congrArg List.length hwriters
    rw [List.length_map, List.length_map] at hlength
    rw [hagenda, h.jobs_length, hlength]
  · have hlength := congrArg List.length hcommits
    rw [List.length_map, List.length_map] at hlength
    rw [hagenda, h.ended_length, hlength]
  · have hmap := congrArg (·[i]?) hwriters
    simp only [List.getElem?_map, hi, Option.map_some] at hmap
    obtain ⟨tx', hi', hsame⟩ := Option.map_eq_some_iff.mp hmap.symm
    rw [hagenda] at hj
    rw [← hsame]
    exact h.filled i tx' job hi' hj
  · have hmap := congrArg (·[i]?) hcommits
    simp only [List.getElem?_map, hi, Option.map_some] at hmap
    obtain ⟨c', hi', hsame⟩ := Option.map_eq_some_iff.mp hmap.symm
    rw [hagenda] at hj
    rw [← hsame]
    exact h.took i c' script hi' hj
  · rw [hagenda]
    exact h.drawn

theorem Booked.begin (h : s.Booked scripts) {script : TxScript} {k : Nat}
    (hk : s.agenda.waiting[k]? = some script) {watched : Watched}
    (hs : s.watched.step (.client .beginWrite) = some watched) :
    Booked scripts ⟨watched, { s.agenda with
      jobs := s.agenda.jobs ++ [⟨script, script.calls⟩]
      waiting := s.agenda.waiting.eraseIdx k }⟩ := by
  obtain ⟨clients, hc, rfl⟩ := Watched.step_client_inv hs
  obtain rfl := Option.some.inj hc
  refine ⟨?_, h.ended_length, fun i tx job hi hj => ?_, h.took, ?_⟩
  · simp only [Watched.follow, List.length_append, h.jobs_length, List.length_singleton]
  · rcases getElem?_concat_eq_some.mp hj with hj | ⟨rfl, rfl⟩
    · have hlt := (List.getElem?_eq_some_iff.mp hj).1
      rw [h.jobs_length] at hlt
      have hi := (getElem?_concat_eq_some.mp hi).resolve_right fun hi => by omega
      exact h.filled i tx job hi hj
    · rcases getElem?_concat_eq_some.mp hi with hi | ⟨-, rfl⟩
      · have hlt := (List.getElem?_eq_some_iff.mp hi).1
        exact absurd h.jobs_length (Nat.ne_of_lt hlt)
      · exact ⟨fun id hid => absurd hid List.not_mem_nil, List.Subset.refl _⟩
  · obtain ⟨hlt, rfl⟩ := List.getElem?_eq_some_iff.mp hk
    refine List.Subperm.trans (List.Perm.subperm ?_) h.drawn
    rw [List.map_append, List.append_assoc, List.append_assoc, List.append_assoc]
    exact ((List.getElem_cons_eraseIdx_perm hlt).append_left _).append_left _

theorem Booked.call (h : s.Booked scripts) {script : TxScript} {c : TxCall} {todo : List TxCall}
    {i : Nat} (hjob : s.agenda.jobs[i]? = some ⟨script, c :: todo⟩) {watched : Watched}
    (hs : s.watched.step (.client (.call i c)) = some watched) :
    Booked scripts ⟨watched, { s.agenda with jobs := s.agenda.jobs.set i ⟨script, todo⟩ }⟩ := by
  obtain ⟨clients, hc, rfl⟩ := Watched.step_client_inv hs
  obtain ⟨tx, htx, rfl⟩ := Clients.step_call_inv hc
  obtain ⟨hfilled, htodo⟩ := h.filled i tx _ htx hjob
  refine ⟨?_, h.ended_length, fun j tx' job hj hjob' => ?_, h.took, ?_⟩
  · simp only [Watched.follow, List.length_set, h.jobs_length]
  · rcases getElem?_set_eq_some hj with ⟨hne, hj⟩ | ⟨rfl, rfl⟩
    · rw [List.getElem?_set_ne hne] at hjob'
      exact h.filled j tx' job hj hjob'
    · obtain rfl := ((getElem?_set_eq_some hjob').resolve_left fun hne => hne.1 rfl).2
      refine ⟨fun id hid => ?_, fun c' hc' => htodo (List.mem_cons_of_mem c hc')⟩
      rcases (TxCall.mem_changedNodes_apply tx _ c id).mp hid with hid | hid
      · exact hfilled id hid
      · exact List.mem_filterMap.mpr ⟨c, htodo List.mem_cons_self, hid⟩
  · have hmap : (s.agenda.jobs.set i ⟨script, todo⟩).map Job.script
        = s.agenda.jobs.map Job.script := Clients.map_set_same hjob rfl
    show s.agenda.ended ++ (s.agenda.jobs.set i _).map Job.script ++ s.agenda.waiting <+~ scripts
    rw [hmap]
    exact h.drawn

theorem Booked.turn (h : s.Booked scripts) {script : TxScript} {i : Nat}
    (hjob : s.agenda.jobs[i]? = some ⟨script, []⟩) (hcommits : script.commits = true)
    {watched : Watched} (hs : s.watched.step (.client (.turn i)) = some watched) :
    Booked scripts ⟨watched, { s.agenda with
      jobs := s.agenda.jobs.eraseIdx i
      ended := s.agenda.ended ++ [script] }⟩ := by
  obtain ⟨clients, hc, rfl⟩ := Watched.step_client_inv hs
  obtain ⟨tx, m, htx, -, rfl⟩ := Clients.step_turn_inv hc
  refine ⟨?_, ?_, fun j tx' job hj hjob' => ?_, fun j c script' hj hscript => ?_, ?_⟩
  · simp only [Watched.follow, List.length_eraseIdx, h.jobs_length]
  · simp only [Watched.follow, List.length_append, h.ended_length, List.length_singleton]
  · obtain ⟨k, hk, hkjob⟩ := getElem?_eraseIdx_pair hj hjob'
    exact h.filled k tx' job hk hkjob
  · have hlen := h.ended_length
    rcases getElem?_concat_eq_some.mp hj with hj | ⟨rfl, rfl⟩
    · have hlt := (List.getElem?_eq_some_iff.mp hj).1
      have hscript := (getElem?_concat_eq_some.mp hscript).resolve_right fun hj => by omega
      exact h.took j c script' hj hscript
    · rw [← hlen, List.getElem?_concat_length, Option.some.injEq] at hscript
      subst hscript
      rw [TxScript.changedNodes, if_pos hcommits]
      exact (h.filled i tx _ htx hjob).1
  · obtain ⟨hlt, hget⟩ := List.getElem?_eq_some_iff.mp hjob
    refine List.Subperm.trans (List.Perm.subperm ?_) h.drawn
    refine List.Perm.append_right _ ?_
    rw [List.append_assoc]
    refine List.Perm.append_left _ ?_
    have hperm := (List.getElem_cons_eraseIdx_perm hlt).map Job.script
    rw [List.map_cons, hget] at hperm
    exact hperm

theorem Booked.rollback (h : s.Booked scripts) {i : Nat} {watched : Watched}
    (hs : s.watched.step (.client (.rollback i)) = some watched) :
    Booked scripts ⟨watched, { s.agenda with jobs := s.agenda.jobs.eraseIdx i }⟩ := by
  obtain ⟨clients, hc, rfl⟩ := Watched.step_client_inv hs
  obtain ⟨tx, m, -, -, rfl⟩ := Clients.step_rollback_inv hc
  refine ⟨?_, h.ended_length, fun j tx' job hj hjob => ?_, h.took, ?_⟩
  · simp only [Watched.follow, List.length_eraseIdx, h.jobs_length]
  · obtain ⟨k, hk, hkjob⟩ := getElem?_eraseIdx_pair hj hjob
    exact h.filled k tx' job hk hkjob
  · refine List.Subperm.trans (List.Sublist.subperm ?_) h.drawn
    exact (((List.eraseIdx_sublist _ _).map Job.script).append_left _).append_right _

theorem Booked.step {a : WorkloadStep} (h : s.Booked scripts) (hs : s.step a = some t) :
    t.Booked scripts := by
  obtain ⟨watched, agenda⟩ := t
  obtain ⟨b, hnext, hstep⟩ := step_inv hs
  dsimp only at hnext hstep
  cases a with
  | beginRead =>
    obtain ⟨rfl, rfl⟩ := Prod.mk.inj (Option.some.inj hnext)
    obtain ⟨clients, hc, rfl⟩ := Watched.step_client_inv hstep
    obtain rfl := Option.some.inj hc
    exact h.of_same rfl rfl rfl
  | beginWrite k =>
    rw [Agenda.next] at hnext
    split at hnext
    · exact absurd hnext (by simp)
    · rename_i script hk
      obtain ⟨rfl, rfl⟩ := Prod.mk.inj (Option.some.inj hnext)
      exact h.begin hk hstep
  | takeSnapshot i =>
    obtain ⟨rfl, rfl⟩ := Prod.mk.inj (Option.some.inj hnext)
    obtain ⟨tx, hi, -, rfl⟩ := Watched.step_takeSnapshot_inv hstep
    exact h.of_same rfl (Clients.map_set_same hi rfl) rfl
  | call i =>
    rw [Agenda.next] at hnext
    split at hnext
    · rename_i script c todo hjob
      obtain ⟨rfl, rfl⟩ := Prod.mk.inj (Option.some.inj hnext)
      exact h.call hjob hstep
    · exact absurd hnext (by simp)
  | turn i =>
    rw [Agenda.next] at hnext
    split at hnext
    · rename_i script hjob
      split at hnext
      · rename_i hcommits
        obtain ⟨rfl, rfl⟩ := Prod.mk.inj (Option.some.inj hnext)
        exact h.turn hjob hcommits hstep
      · exact absurd hnext (by simp)
    · exact absurd hnext (by simp)
  | write i =>
    obtain ⟨rfl, rfl⟩ := Prod.mk.inj (Option.some.inj hnext)
    obtain ⟨clients, hc, rfl⟩ := Watched.step_client_inv hstep
    obtain ⟨c, w, c', hi, hw, rfl⟩ := Clients.step_write_inv hc
    exact h.of_same rfl rfl (Clients.map_set_same hi (Commit.next_spec hw).1)
  | rollback i =>
    obtain ⟨rfl, rfl⟩ := Prod.mk.inj (Option.some.inj hnext)
    exact h.rollback hstep

omit [Bincode Node] [Bincode Edge] [Bincode (Option Value)] in
/-- Commits of scripts that change different nodes have no node in common. -/
theorem Booked.no_conflict (h : s.Booked scripts)
    (hdisjoint : scripts.Pairwise fun p q => p.changedNodes.Disjoint q.changedNodes)
    {i j : Nat} {c d : Commit} (hne : i ≠ j) (hi : s.watched.clients.commits[i]? = some c)
    (hj : s.watched.clients.commits[j]? = some d) : ¬ c.tx.Conflicts d.tx := by
  obtain ⟨ended, hperm, hsub⟩ := h.drawn
  have hall : (s.agenda.ended ++ s.agenda.jobs.map Job.script ++ s.agenda.waiting).Pairwise
      fun p q => p.changedNodes.Disjoint q.changedNodes :=
    (hperm.pairwise_iff fun hpq => hpq.symm).mp (hdisjoint.sublist hsub)
  have hended := (List.pairwise_append.mp (List.pairwise_append.mp hall).1).1
  have hapart : ∀ {i j : Nat} {c d : Commit}, i < j → s.watched.clients.commits[i]? = some c →
      s.watched.clients.commits[j]? = some d → ¬ c.tx.Conflicts d.tx := by
    intro i j c d hlt hi hj ⟨id, hid, hid'⟩
    have hil := (List.getElem?_eq_some_iff.mp hi).1
    have hjl := (List.getElem?_eq_some_iff.mp hj).1
    rw [← h.ended_length] at hil hjl
    have hmem := h.took i c _ hi (List.getElem?_eq_getElem hil) id hid
    have hmem' := h.took j d _ hj (List.getElem?_eq_getElem hjl) id hid'
    exact List.pairwise_iff_getElem.mp hended i j hil hjl hlt hmem hmem'
  rcases Nat.lt_or_gt_of_ne hne with hlt | hgt
  · exact hapart hlt hi hj
  · exact fun hconf => hapart hgt hj hi hconf.symm

omit [Bincode Node] [Bincode Edge] [Bincode (Option Value)] in
/-- Without conflicts there is nothing to overwrite. -/
theorem Booked.overwritesSeen (h : s.Booked scripts)
    (hdisjoint : scripts.Pairwise fun p q => p.changedNodes.Disjoint q.changedNodes) (i : Nat) :
    s.watched.OverwritesSeen i := by
  intro c w c' m id hc hnext hm hid j d w' hji hd hw' hid'
  have hw : w ∈ c.tx.writes := by
    rw [← c.whole, (Commit.next_spec hnext).2.2]
    exact List.mem_append_right _ List.mem_cons_self
  have hdw : w' ∈ d.tx.writes := by
    rw [← d.whole]
    exact List.mem_append_left _ hw'
  exact absurd ⟨id, Transaction.mem_changedNodes hdw hid', Transaction.mem_changedNodes hw hid⟩
    (h.no_conflict hdisjoint hji hd hc)

/-! ## Two that change one node -/

/-- A transaction makes all its calls. -/
theorem run_calls (script : TxScript) (i : Nat) (before seen : List Nat) (todo : List TxCall) :
    ∀ {c : Clients} {g : Agenda} {tx : Transaction}, c.writers[i]? = some tx →
      g.jobs[i]? = some ⟨script, todo⟩ →
    ∃ db tx', run step ⟨⟨c, before, seen⟩, g⟩ (List.replicate todo.length (.call i))
        = some ⟨⟨{ c with db, writers := c.writers.set i tx' }, before, seen⟩,
            { g with jobs := g.jobs.set i ⟨script, []⟩ }⟩ ∧
      db.txManager = c.db.txManager ∧ tx'.txId = tx.txId ∧
      ∀ id, id ∈ tx.changedNodes ∨ id ∈ todo.filterMap TxCall.changed → id ∈ tx'.changedNodes := by
  induction todo with
  | nil =>
    intro c g tx hi hjob
    obtain ⟨hlt, rfl⟩ := List.getElem?_eq_some_iff.mp hi
    obtain ⟨hlt', hget⟩ := List.getElem?_eq_some_iff.mp hjob
    refine ⟨c.db, c.writers[i], ?_, rfl, rfl, fun id hid => hid.resolve_right List.not_mem_nil⟩
    rw [← hget, List.set_getElem_self, List.set_getElem_self]
    rfl
  | cons call todo ih =>
    intro c g tx hi hjob
    have hlt := (List.getElem?_eq_some_iff.mp hi).1
    have hlt' := (List.getElem?_eq_some_iff.mp hjob).1
    have hnext : g.next (.call i) = some (.client (.call i call),
        { g with jobs := g.jobs.set i ⟨script, todo⟩ }) := by
      simp only [Agenda.next, hjob]
    have hclient : (⟨c, before, seen⟩ : Watched).step (.client (.call i call))
        = some ⟨{ c with
            db := (TxCall.apply (tx, c.db) call).2
            writers := c.writers.set i (TxCall.apply (tx, c.db) call).1 }, before, seen⟩ := by
      simp only [Watched.step, Clients.step, hi, Watched.follow]
    obtain ⟨-, hmanager, hid, -⟩ := Database.apply_same (tx, c.db) call
    obtain ⟨db, tx', hrun, hmanager', hid', hchanged⟩ := ih
      (c := { c with
        db := (TxCall.apply (tx, c.db) call).2
        writers := c.writers.set i (TxCall.apply (tx, c.db) call).1 })
      (g := { g with jobs := g.jobs.set i ⟨script, todo⟩ })
      (List.getElem?_set_self hlt) (List.getElem?_set_self hlt')
    refine ⟨db, tx', ?_, hmanager'.trans hmanager, hid'.trans hid, fun id h => hchanged id ?_⟩
    · rw [List.length_cons, List.replicate_succ,
        run_cons_of_step (step_of_next hnext hclient), hrun]
      simp only [List.set_set]
    · rw [TxCall.mem_changedNodes_apply]
      rcases h with h | h
      · exact Or.inl (Or.inl h)
      · obtain ⟨c', hc', hset⟩ := List.mem_filterMap.mp h
        rcases List.mem_cons.mp hc' with rfl | hc'
        · exact Or.inl (Or.inr hset)
        · exact Or.inr (List.mem_filterMap.mpr ⟨c', hc', hset⟩)

/-- Its commit has its turn. -/
theorem step_turn (c : Clients) (before seen : List Nat) (g : Agenda) {script : TxScript}
    {i n : Nat} {tx : Transaction} (hi : c.writers[i]? = some tx)
    (hjob : g.jobs[i]? = some ⟨script, []⟩)
    (hcommits : script.commits = true) (hn : before[i]? = some n)
    (hturn : c.db.txManager.committedTxId = tx.txId - 1) :
    (⟨⟨c, before, seen⟩, g⟩ : Workload).step (.turn i)
      = some ⟨⟨{ c with
          db := c.db.withManager { c.db.txManager with committedTxId := tx.txId }
          writers := c.writers.eraseIdx i
          commits := c.commits ++ [Commit.start { tx with committed := true }] },
        before.eraseIdx i, seen ++ [n]⟩,
        { g with jobs := g.jobs.eraseIdx i, ended := g.ended ++ [script] }⟩ := by
  have hnext : g.next (.turn i) = some (.client (.turn i),
      { g with jobs := g.jobs.eraseIdx i, ended := g.ended ++ [script] }) := by
    simp only [Agenda.next, hjob, hcommits, if_true]
  refine step_of_next hnext ?_
  have hadvance := TxManager.advance_eq_some_iff.mpr ⟨hturn, rfl⟩
  simp only [Watched.step, Clients.step, hi, hadvance, Watched.follow, List.getD_eq_getElem?_getD,
    hn, Option.getD_some]

/-- Writes leave the counts and the agenda alone. -/
theorem run_client_writes (before seen : List Nat) (g : Agenda) (i n : Nat) : ∀ {c d : Clients},
    run Clients.step c (List.replicate n (.write i)) = some d →
    run step ⟨⟨c, before, seen⟩, g⟩ (List.replicate n (.write i))
      = some ⟨⟨d, before, seen⟩, g⟩ := by
  induction n with
  | zero =>
    intro c d h
    obtain rfl := Option.some.inj h
    rfl
  | succ n ih =>
    intro c d h
    rw [List.replicate_succ] at h ⊢
    obtain ⟨c', hstep, hrest⟩ := run_cons_inv h
    have hwatched : (⟨c, before, seen⟩ : Watched).step (.client (.write i))
        = some ⟨c', before, seen⟩ := by
      simp only [Watched.step, hstep, Watched.follow]
    have hstep' : (⟨⟨c, before, seen⟩, g⟩ : Workload).step (.write i)
        = some ⟨⟨c', before, seen⟩, g⟩ := step_of_next rfl hwatched
    rw [run_cons_of_step hstep']
    exact ih hrest

/-- Two transactions with all their calls made commit, in the order of their tickets, and do all
their writes. -/
theorem exists_commits {db : Database} {tx tx' : Transaction} {p q : TxScript}
    (waiting : List TxScript) (hp : p.commits = true) (hq : q.commits = true)
    (hturn : db.txManager.committedTxId = tx.txId - 1) (hturn' : tx.txId = tx'.txId - 1) :
    ∃ steps s c d, run step
        ⟨⟨{ db, writers := [tx, tx'], commits := [], readers := [] }, [0, 0], []⟩,
          { jobs := [⟨p, []⟩, ⟨q, []⟩], ended := [], waiting }⟩ steps = some s ∧
      s.watched.clients.commits = [c, d] ∧ s.watched.seen = [0, 0] ∧
      c.tx = { tx with committed := true } ∧ d.tx = { tx' with committed := true } ∧
      c.remaining = [] ∧ d.remaining = [] := by
  have hstep := step_turn (i := 0) { db, writers := [tx, tx'], commits := [], readers := [] } [0, 0]
    [] { jobs := [⟨p, []⟩, ⟨q, []⟩], ended := [], waiting } rfl rfl hp rfl hturn
  have hstep' := step_turn (i := 0)
    { db := db.withManager { db.txManager with committedTxId := tx.txId }
      writers := [tx'], commits := [Commit.start { tx with committed := true }], readers := [] }
    [0] [0] { jobs := [⟨q, []⟩], ended := [p], waiting } rfl rfl hq rfl hturn'
  obtain ⟨c, hwrites, hc, hdone⟩ := Clients.run_writes tx.writes
    (s := { db := (db.withManager { db.txManager with committedTxId := tx.txId }).withManager
              { db.txManager with committedTxId := tx'.txId }
            writers := []
            commits := [Commit.start { tx with committed := true },
              Commit.start { tx' with committed := true }]
            readers := [] }) (i := 0) rfl rfl
  obtain ⟨d, hwrites', hd, hdone'⟩ := Clients.run_writes tx'.writes
    (s := { db := ((db.withManager { db.txManager with committedTxId := tx.txId }).withManager
              { db.txManager with committedTxId := tx'.txId }).performAll tx.txId tx.writes
            writers := [], commits := [c, Commit.start { tx' with committed := true }]
            readers := [] }) (i := 1) rfl rfl
  have hrun := run_client_writes [] [0, 0] { jobs := [], ended := [p, q], waiting } 0 _ hwrites
  have hrun' := run_client_writes [] [0, 0] { jobs := [], ended := [p, q], waiting } 1 _ hwrites'
  have hall := (run_cons_of_step hstep).trans
    ((run_cons_of_step hstep').trans ((run_append hrun _).trans hrun'))
  exact ⟨_, _, c, d, hall, rfl, rfl, hc, hd, hdone, hdone'⟩

/-- Both begin, both make their calls, and both commit. -/
theorem exists_both_commit {db : Database}
    (hidle : db.txManager.nextTxId = db.txManager.committedTxId + 1) {i j : Nat} (hij : i < j)
    {p q : TxScript} (hp : scripts[i]? = some p) (hq : scripts[j]? = some q) {id : NodeId}
    (hidp : id ∈ p.changedNodes) (hidq : id ∈ q.changedNodes) :
    ∃ steps s, run step (start db scripts) steps = some s ∧ ¬ s.watched.AtMostOne := by
  have hcommits : ∀ {script : TxScript}, id ∈ script.changedNodes →
      script.commits = true ∧ id ∈ script.calls.filterMap TxCall.changed := by
    intro script hid
    unfold TxScript.changedNodes at hid
    split at hid
    · rename_i h
      exact ⟨h, hid⟩
    · exact absurd hid List.not_mem_nil
  obtain ⟨hpc, hpid⟩ := hcommits hidp
  obtain ⟨hqc, hqid⟩ := hcommits hidq
  -- the later of the two begins first
  have hp' : (scripts.eraseIdx j)[i]? = some p := by
    rw [List.getElem?_eraseIdx_of_lt hij, hp]
  have hbegin : run step (start db scripts) [.beginWrite j, .beginWrite i]
      = some ⟨⟨{ db := db.beginWrite.2.beginWrite.2
                 writers := [db.beginWrite.1, db.beginWrite.2.beginWrite.1]
                 commits := [], readers := [] }, [0, 0], []⟩,
          { jobs := [⟨q, q.calls⟩, ⟨p, p.calls⟩], ended := []
            waiting := (scripts.eraseIdx j).eraseIdx i }⟩ := by
    simp only [run, step, start, Agenda.next, hq, hp', Watched.step, Watched.start, Clients.step,
      Clients.start, Watched.follow]
    rfl
  obtain ⟨db₁, tx, hcalls, hmanager, hid, hchanged⟩ := run_calls q 0 [0, 0] [] q.calls
    (c := { db := db.beginWrite.2.beginWrite.2
            writers := [db.beginWrite.1, db.beginWrite.2.beginWrite.1]
            commits := [], readers := [] })
    (g := { jobs := [⟨q, q.calls⟩, ⟨p, p.calls⟩], ended := []
            waiting := (scripts.eraseIdx j).eraseIdx i }) rfl rfl
  obtain ⟨db₂, tx', hcalls', hmanager', hid', hchanged'⟩ := run_calls p 1 [0, 0] [] p.calls
    (c := { db := db₁, writers := [tx, db.beginWrite.2.beginWrite.1], commits := []
            readers := [] })
    (g := { jobs := [⟨q, []⟩, ⟨p, p.calls⟩], ended := []
            waiting := (scripts.eraseIdx j).eraseIdx i }) rfl rfl
  -- the tickets are the next two
  have htx : tx.txId = db.txManager.committedTxId + 1 := hid.trans hidle
  have htx' : tx'.txId = db.txManager.committedTxId + 1 + 1 := by
    rw [hid', ← hidle]
    rfl
  have hturn : db₂.txManager.committedTxId = tx.txId - 1 := by
    rw [hmanager', hmanager, htx, UInt64.add_sub_cancel]
    rfl
  have hturn' : tx.txId = tx'.txId - 1 := by
    rw [htx, htx', UInt64.add_sub_cancel]
  obtain ⟨steps, s, c, d, hrun, hboth, hseen, hc, hd, hdone, hdone'⟩ :=
    exists_commits ((scripts.eraseIdx j).eraseIdx i) hqc hpc hturn hturn'
  have hwhole : run step (start db scripts) ([.beginWrite j, .beginWrite i] ++
      (List.replicate q.calls.length (.call 0) ++
        (List.replicate p.calls.length (.call 1) ++ steps))) = some s := by
    rw [run_append hbegin, run_append hcalls]
    exact (run_append hcalls' steps).trans hrun
  refine ⟨_, s, hwhole, fun hone => ?_⟩
  refine hone 0 1 c d (by decide) (by rw [hboth]; rfl) (by rw [hboth]; rfl) hdone hdone'
    ⟨0, 0, by rw [hseen]; rfl, by rw [hseen]; rfl, by decide, by decide⟩ ⟨id, ?_, ?_⟩
  · rw [hc]
    exact hchanged id (Or.inr hqid)
  · rw [hd]
    exact hchanged' id (Or.inr hpid)

end Persistent
end Workload

/-- **First committer wins exactly where nobody loses.** Given transactions on a database that no
other one is using, with every interleaving of their begins, calls, turns, writes and ends, and of
readers: it is always so that of two commits that overlap and change the same node at most one
returns, and that none overwrites what its transaction has not seen, if and only if no two of the
transactions that are to commit change the same node. -/
theorem first_committer_wins_iff [Bincode Node] [Bincode Edge] [Bincode (Option Value)]
    {db : Database} (hidle : db.txManager.nextTxId = db.txManager.committedTxId + 1)
    (scripts : List TxScript) :
    (∀ (steps : List WorkloadStep) (s : Workload),
        run Workload.step (Workload.start db scripts) steps = some s →
        s.watched.AtMostOne ∧ ∀ i, s.watched.OverwritesSeen i) ↔
      scripts.Pairwise fun p q => p.changedNodes.Disjoint q.changedNodes := by
  constructor
  · intro hall
    rw [List.pairwise_iff_getElem]
    intro i j hi hj hij id hidp hidq
    obtain ⟨steps, s, hrun, hnot⟩ := Workload.exists_both_commit hidle hij
      (List.getElem?_eq_getElem hi) (List.getElem?_eq_getElem hj) hidp hidq
    exact hnot (hall steps s hrun).1
  · intro hdisjoint steps s hrun
    have hbooked : s.Booked scripts :=
      run_invariant (fun _ _ _ h hs => Workload.Booked.step h hs)
        (Workload.booked_start db scripts) hrun
    refine ⟨fun i j c d hne hi hj _ _ _ => ?_, hbooked.overwritesSeen hdisjoint⟩
    exact hbooked.no_conflict hdisjoint hne hi hj

/-- Two transactions on different nodes, one step of the one after one of the other. -/
def inStep : List WorkloadStep :=
  [.beginWrite 0, .beginWrite 0, .call 0, .call 1, .turn 0, .turn 0, .write 1, .write 0]

theorem first_committer_wins_iff_two :
    ∃ s, run Workload.step (Workload.start Database.memory
        [⟨[.updateNodeLabels 0 [2]], true⟩, ⟨[.deleteNode 1], true⟩]) inStep = some s ∧
      s.watched.Overlap 0 1 ∧ s.watched.AtMostOne ∧ ∀ i, s.watched.OverwritesSeen i := by
  have hall := (first_committer_wins_iff (show Database.memory.txManager.nextTxId = _ from rfl)
    [⟨[.updateNodeLabels 0 [2]], true⟩, ⟨[.deleteNode 1], true⟩]).mpr
    (by simp [TxScript.changedNodes, TxCall.changed])
  exact ⟨_, rfl, ⟨0, 0, rfl, rfl, by decide, by decide⟩, hall inStep _ rfl⟩

/-- A node is created; then two transactions begin, both update its labels, and both commit. -/
def bothUpdate : List WorkloadStep :=
  [.beginWrite 0, .call 0, .turn 0, .write 0, .beginWrite 0, .takeSnapshot 0, .beginWrite 0,
    .takeSnapshot 1, .call 0, .call 1, .turn 0, .write 1, .turn 0, .write 2]

/-- Both calls return. -/
theorem both_updates_committed :
    ¬ ∀ (db : Database) (scripts : List TxScript) (steps : List WorkloadStep) (s : Workload),
      run Workload.step (Workload.start db scripts) steps = some s → s.watched.AtMostOne := by
  intro h
  have hrun : run Workload.step (Workload.start Database.memory
      [⟨[.createNode [1] 0], true⟩, ⟨[.updateNodeLabels 0 [2]], true⟩,
        ⟨[.updateNodeLabels 0 [3]], true⟩]) bothUpdate = some _ := rfl
  exact h Database.memory _ bothUpdate _ hrun 1 2 _ _ (by decide) rfl rfl rfl rfl
    ⟨1, 1, rfl, rfl, by decide, by decide⟩ ⟨0, by decide, by decide⟩

/-! ## What the snapshot ids say -/

namespace Watched
variable {s t : Watched}

/-- A snapshot id reaches just the first `m` commits. -/
def Covers (s : Watched) (snapshot : TxId) (m : Nat) : Prop :=
  ∀ j c, s.committed[j]? = some c → (c.txId ≤ snapshot ↔ j < m)

def HasTicket (s : Watched) : WatchedStep → Prop
  | .client a => s.clients.HasTicket a
  | .takeSnapshot _ => True

/-- The ids of the snapshots are not ahead of the counter, and say what the counts say. -/
structure Counted (s : Watched) : Prop where
  tickets : s.clients.Tickets
  parallel : s.Parallel
  writers : ∀ (i m : Nat) (tx : Transaction), s.clients.writers[i]? = some tx →
    s.before[i]? = some m →
    tx.snapshot ≤ s.clients.db.txManager.committedTxId ∧ s.Covers tx.snapshot m
  commits : ∀ (i m : Nat) (c : Transaction), s.committed[i]? = some c → s.seen[i]? = some m →
    c.snapshot ≤ s.clients.db.txManager.committedTxId ∧ s.Covers c.snapshot m

/-- The counter reaches all commits there are. -/
theorem Covers.now (h : s.clients.Tickets) :
    s.Covers s.clients.db.txManager.committedTxId s.clients.commits.length := by
  intro j c hc
  have hj := (List.getElem?_eq_some_iff.mp hc).1
  rw [committed, List.length_map] at hj
  have hserved : c.txId ∈ s.clients.served := by
    obtain ⟨d, hd, rfl⟩ := List.mem_map.mp (List.mem_of_getElem? hc)
    exact List.mem_map_of_mem hd
  exact iff_of_true (h.passed c.txId hserved) hj

theorem Covers.append {tx : Transaction} {snapshot : TxId} {m : Nat} (h : s.Covers snapshot m)
    (hm : m ≤ s.committed.length) (hlt : snapshot < tx.txId)
    (hcommitted : t.committed = s.committed ++ [tx]) : t.Covers snapshot m := by
  intro j c hc
  rw [hcommitted] at hc
  rcases getElem?_concat_eq_some.mp hc with hc | ⟨rfl, rfl⟩
  · exact h j c hc
  · exact iff_of_false (UInt64.not_le.mpr hlt) (Nat.not_lt.mpr hm)

/-- Steps that commit nothing: a snapshot was there before, or is the counter as it stands. -/
theorem Counted.of_same (h : s.Counted) (htickets : t.clients.Tickets) (hparallel : t.Parallel)
    (hcommitted : t.committed = s.committed) (hseen : t.seen = s.seen)
    (hcounter : s.clients.db.txManager.committedTxId ≤ t.clients.db.txManager.committedTxId)
    (hpairs : ∀ (i m : Nat) (tx : Transaction), t.clients.writers[i]? = some tx →
      t.before[i]? = some m →
      (∃ (k : Nat) (tx' : Transaction), s.clients.writers[k]? = some tx' ∧
        s.before[k]? = some m ∧ tx'.snapshot = tx.snapshot) ∨
      tx.snapshot = s.clients.db.txManager.committedTxId ∧ m = s.clients.commits.length) :
    t.Counted := by
  have hcovers : ∀ {snapshot m}, s.Covers snapshot m → t.Covers snapshot m := by
    intro snapshot m hc
    rw [Covers, hcommitted]
    exact hc
  refine ⟨htickets, hparallel, fun i m tx hi hm => ?_, fun i m c hi hm => ?_⟩
  · rcases hpairs i m tx hi hm with ⟨k, tx', hk, hkm, hsnap⟩ | ⟨hsnap, rfl⟩
    · obtain ⟨hle, hc⟩ := h.writers k m tx' hk hkm
      rw [← hsnap]
      exact ⟨UInt64.le_trans hle hcounter, hcovers hc⟩
    · rw [hsnap]
      exact ⟨hcounter, hcovers (Covers.now h.tickets)⟩
  · rw [hcommitted] at hi
    rw [hseen] at hm
    obtain ⟨hle, hc⟩ := h.commits i m c hi hm
    exact ⟨UInt64.le_trans hle hcounter, hcovers hc⟩

section Persistent
variable [Bincode Node] [Bincode Edge] [Bincode (Option Value)]

theorem Counted.turn {i : Nat} (h : s.Counted) (htickets : t.clients.Tickets)
    (hs : s.step (.client (.turn i)) = some t) : t.Counted := by
  have hparallel := h.parallel.step hs
  rcases h.parallel.step_committed hs with ⟨hturn, -⟩ | ⟨k, tx, m, ha, hi, hm, hcommitted, hseen⟩
  · exact absurd rfl (hturn i)
  obtain rfl : i = k := by simpa using ha
  obtain ⟨clients, hc, ht⟩ := step_client_inv hs
  obtain ⟨tx', manager, hi', hadvance, rfl⟩ := Clients.step_turn_inv hc
  obtain rfl := Option.some.inj (hi.symm.trans hi')
  obtain ⟨-, hcounter, hlt, -⟩ := h.tickets.advance hi hadvance
  have hcounter : t.clients.db.txManager.committedTxId = tx.txId := by rw [ht]; exact hcounter
  have hwriters : t.clients.writers = s.clients.writers.eraseIdx i := by rw [ht]; rfl
  have hbefore : t.before = s.before.eraseIdx i := by rw [ht]; rfl
  have hlen : s.committed.length = s.clients.commits.length := by rw [committed, List.length_map]
  -- what was covered is so still: the new commit is ahead of every snapshot there is
  have hkeep : ∀ {snapshot : TxId} {n : Nat}, n ≤ s.clients.commits.length →
      snapshot ≤ s.clients.db.txManager.committedTxId ∧ s.Covers snapshot n →
      snapshot ≤ tx.txId ∧ t.Covers snapshot n := by
    intro snapshot n hn ⟨hle, hcovers⟩
    have hsnap : snapshot < ({ tx with committed := true } : Transaction).txId :=
      UInt64.lt_of_le_of_lt hle hlt
    exact ⟨UInt64.le_of_lt hsnap, hcovers.append (hlen ▸ hn) hsnap hcommitted⟩
  refine ⟨htickets, hparallel, fun j n tx' hj hn => ?_, fun j n c hj hn => ?_⟩
  · rw [hwriters] at hj
    rw [hbefore] at hn
    obtain ⟨k, hk, hkn⟩ := getElem?_eraseIdx_pair hj hn
    rw [hcounter]
    exact hkeep (h.parallel.before_le n (List.mem_of_getElem? hkn)) (h.writers k n tx' hk hkn)
  · rw [hcommitted] at hj
    rw [hseen] at hn
    rw [hcounter]
    have hseenlen := h.parallel.seen_length
    rcases getElem?_concat_eq_some.mp hj with hj | ⟨rfl, rfl⟩
    · have hjlt := (List.getElem?_eq_some_iff.mp hj).1
      have hn : s.seen[j]? = some n :=
        (getElem?_concat_eq_some.mp hn).resolve_right fun hj => by omega
      have hnj := h.parallel.seen_le j n hn
      exact hkeep (by omega) (h.commits j n c hj hn)
    · rw [hlen, ← hseenlen, List.getElem?_concat_length, Option.some.injEq] at hn
      subst hn
      exact hkeep (h.parallel.before_le m (List.mem_of_getElem? hm)) (h.writers i m tx hi hm)

theorem Counted.step {a : WatchedStep} (h : s.Counted) (hg : s.HasTicket a)
    (hs : s.step a = some t) : t.Counted := by
  have hparallel := h.parallel.step hs
  cases a with
  | client a =>
    obtain ⟨clients, hc, rfl⟩ := step_client_inv hs
    have htickets := h.tickets.step hg hc
    cases a with
    | beginRead =>
      obtain rfl := Option.some.inj hc
      exact h.of_same htickets hparallel rfl rfl (UInt64.le_refl _)
        fun i m tx hi hm => Or.inl ⟨i, tx, hi, hm, rfl⟩
    | beginWrite =>
      obtain rfl := Option.some.inj hc
      refine h.of_same htickets hparallel rfl rfl (UInt64.le_refl _) fun i m tx hi hm => ?_
      have hlen := h.parallel.before_length
      rcases getElem?_concat_eq_some.mp hi with hi | ⟨rfl, rfl⟩
      · have hlt := (List.getElem?_eq_some_iff.mp hi).1
        have hm : s.before[i]? = some m :=
          (getElem?_concat_eq_some.mp hm).resolve_right fun hi => by omega
        exact Or.inl ⟨i, tx, hi, hm, rfl⟩
      · rw [← hlen, follow, List.getElem?_concat_length, Option.some.injEq] at hm
        exact Or.inr ⟨rfl, hm.symm⟩
    | call i c =>
      obtain ⟨tx, hi, rfl⟩ := Clients.step_call_inv hc
      have hmanager := (Database.apply_same (tx, s.clients.db) c).2.1
      have hsnap : (TxCall.apply (tx, s.clients.db) c).1.snapshot = tx.snapshot := by
        cases c <;> rfl
      refine h.of_same htickets hparallel rfl rfl ?_ fun j m tx' hj hm => ?_
      · show _ ≤ (TxCall.apply (tx, s.clients.db) c).2.txManager.committedTxId
        rw [hmanager]
        exact UInt64.le_refl _
      · rcases getElem?_set_eq_some hj with ⟨-, hj⟩ | ⟨rfl, rfl⟩
        · exact Or.inl ⟨j, tx', hj, hm, rfl⟩
        · exact Or.inl ⟨i, tx, hi, hm, hsnap.symm⟩
    | turn i => exact h.turn htickets hs
    | write i =>
      obtain ⟨-, hcommitted, hseen⟩ :=
        (h.parallel.step_committed hs).resolve_right fun ⟨_, _, _, ha, _⟩ => absurd ha (by simp)
      obtain ⟨c, w, c', -, -, rfl⟩ := Clients.step_write_inv hc
      refine h.of_same htickets hparallel hcommitted hseen ?_
        fun j m tx hj hm => Or.inl ⟨j, tx, hj, hm, rfl⟩
      show _ ≤ (s.clients.db.perform c.txId w).txManager.committedTxId
      rw [Database.perform_txManager]
      exact UInt64.le_refl _
    | rollback i =>
      obtain ⟨tx, manager, hi, hadvance, rfl⟩ := Clients.step_rollback_inv hc
      obtain ⟨-, hcounter, hlt, -⟩ := h.tickets.advance hi hadvance
      refine h.of_same htickets hparallel rfl rfl ?_ fun j m tx' hj hm => ?_
      · show _ ≤ manager.committedTxId
        rw [hcounter]
        exact UInt64.le_of_lt hlt
      · obtain ⟨k, hk, hkm⟩ := getElem?_eraseIdx_pair hj hm
        exact Or.inl ⟨k, tx', hk, hkm, rfl⟩
  | takeSnapshot i =>
    obtain ⟨tx, hi, -, rfl⟩ := step_takeSnapshot_inv hs
    have htickets : ({ s.clients with
        writers := s.clients.writers.set i
          { tx with snapshot := s.clients.db.txManager.latestCommitted } } : Clients).Tickets := by
      have hsame := Clients.map_set_same (f := fun tx : Transaction => tx.txId)
        (b := { tx with snapshot := s.clients.db.txManager.latestCommitted }) hi rfl
      refine ⟨h.tickets.fresh, ?_, ?_, h.tickets.passed, h.tickets.ordered, h.tickets.snapshots⟩
      · rw [Clients.tickets, hsame]
        exact h.tickets.held
      · rw [Clients.tickets, hsame]
        exact h.tickets.distinct
    refine h.of_same htickets hparallel rfl rfl (UInt64.le_refl _) fun j m tx' hj hm => ?_
    rcases getElem?_set_eq_some hj with ⟨hne, hj⟩ | ⟨rfl, rfl⟩
    · rw [List.getElem?_set_ne hne] at hm
      exact Or.inl ⟨j, tx', hj, hm, rfl⟩
    · have hm := (getElem?_set_eq_some hm).resolve_left fun hne => hne.1 rfl
      exact Or.inr ⟨rfl, hm.2.symm⟩

end Persistent
end Watched

/-- **The snapshot ids say what the counts say.** Until the dispenser runs over, a commit is among
those a transaction counted when it took its snapshot if and only if the snapshot reaches it. -/
theorem snapshot_covers_iff [Bincode Node] [Bincode Edge] [Bincode (Option Value)]
    {db : Database} (hfresh : db.txManager.committedTxId < db.txManager.nextTxId)
    {steps : List WatchedStep} {s : Watched}
    (hg : Guarded Watched.step Watched.HasTicket (Watched.start db) steps)
    (h : run Watched.step (Watched.start db) steps = some s) {i j m : Nat} {c d : Transaction}
    (hi : s.committed[i]? = some c) (hm : s.seen[i]? = some m) (hj : s.committed[j]? = some d) :
    d.txId ≤ c.snapshot ↔ j < m := by
  have hstart : (Watched.start db).Counted := by
    refine ⟨(Clients.Ordered.start hfresh).tickets, Watched.Parallel.start db, ?_, ?_⟩
    · exact fun i m tx hi => absurd hi (by simp [Watched.start, Clients.start])
    · exact fun i m c hi => absurd hi (by simp [Watched.start, Watched.committed, Clients.start])
  have hinv := guarded_invariant (I := Watched.Counted)
    (fun s a t hI hgood hs => hI.step hgood hs) hstart hg h
  exact (hinv.commits i m c hi hm).2 j d hj

end LightGraph
