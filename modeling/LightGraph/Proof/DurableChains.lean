import LightGraph.Proof.Adjacency
import LightGraph.Proof.UnlinkLog

/-!
# Chains across restarts

What a call changes is in the log when it returns. So a caller who keeps the heads and the rules of
`Storage/Adjacency.lean` (an edge is linked once, unlinked when it is linked, and not deleted for
good in between) can close the store and open it again as often as it likes: each time the chains
are what they were, for the reader of any snapshot (`chains_survive_restarts`).

What a restart needs is what ids need: a log in which no id was handed out again.
-/

set_option autoImplicit false

namespace LightGraph

open Lib

/-! ## The machine -/

/-- A caller of the store, who can also close it and open it again. -/
inductive DurableStep
  | call (a : AdjacencyStep)
  /-- flushed, closed and opened; the caller keeps the heads -/
  | restart

namespace Adjacency

/-- The store of an empty directory. -/
def opened : Adjacency := { start with store := EdgeStore.fresh }

section Persistent
variable [Bincode Edge]

def durableStep (s : Adjacency) : DurableStep → Option Adjacency
  | .call a => s.step a
  | .restart =>
    match EdgeStore.open s.store.file with
    | .ok store => some { s with store }
    | .error _ => none

/-- What is in the log can be read back, and no id in it was handed out again. -/
structure Restartable (s : Adjacency) : Prop where
  fits : ∀ r ∈ s.store.history, r.Fits
  ids : ∀ log, openedRecords s.store.file = .ok log → NeverRecycled Edge log

/-- There are ids left, and every restart finds a log it can use. -/
def DurableOk (s : Adjacency) : DurableStep → Prop
  | .call a => s.HasIds a
  | .restart => s.Restartable

/-- The chains hold the linked edges, and the log has all of it. -/
structure Durable (s : Adjacency) : Prop where
  linked : s.Linked
  synced : ∃ log : List LogRecord, (∀ r ∈ log, r.Fits) ∧ RecordStore.Synced log s.store

theorem opened_durable : opened.Durable where
  linked := start_linked.ofStore (start_linked.sound.of_keys (fun _ h => h) rfl rfl)
    (fun _ _ h => absurd h List.not_mem_nil) fun _ _ h => absurd h List.not_mem_nil
  synced := ⟨[], by simp, (EdgeStore.open_synced LogHolds.empty EdgeStore.open_nil).1⟩

variable {s t : Adjacency}

/-- Every call of the caller logs what it changes. -/
theorem step_logs {w : WalLog} (hwal : s.store.wal = some w) {a : AdjacencyStep}
    (hs : s.step a = some t) : ∃ cmds, RecordStore.Logs s.store t.store cmds := by
  have hperform : ∀ op, ∃ cmds, RecordStore.Logs s.store (EdgeStore.perform s.store op) cmds := by
    intro op
    obtain ⟨cmds, -, hlogs⟩ := EdgeStore.perform_logs hwal op
    exact ⟨cmds, hlogs⟩
  cases a with
  | insertEdge src dst etype propsRow txId =>
    obtain rfl := Option.some.inj hs
    exact hperform (.insertEdge src dst etype propsRow txId)
  | link e =>
    simp only [step] at hs
    split at hs
    · exact absurd hs (by simp)
    · rename_i edge hget
      split at hs
      · exact absurd hs (by simp)
      · obtain rfl := Option.some.inj hs
        exact hperform (.linkIntoChains e (s.firstOut edge.src) (s.firstIn edge.dst))
  | unlink e =>
    simp only [step] at hs
    split at hs
    · exact absurd hs (by simp)
    · split at hs
      · split at hs
        · exact absurd hs (by simp)
        · rename_i hrun
          obtain rfl := Option.some.inj hs
          obtain ⟨cmds, hlogs, -⟩ := EdgeStore.unlinkFromChains_logs hwal hrun
          exact ⟨cmds, hlogs⟩
      · exact absurd hs (by simp)
  | softDelete id txId =>
    obtain rfl := Option.some.inj hs
    exact hperform (.softDelete id txId)
  | hardDelete id =>
    simp only [step] at hs
    split at hs
    · exact absurd hs (by simp)
    · obtain rfl := Option.some.inj hs
      exact hperform (.hardDelete id)

/-- A restart finds every edge as it was. -/
theorem Durable.restart (h : s.Durable) (hr : s.Restartable) :
    ∃ t, s.durableStep .restart = some t ∧ t.Durable ∧ t.store.records = s.store.records ∧
      t.firstOut = s.firstOut ∧ t.firstIn = s.firstIn ∧ t.linked = s.linked := by
  obtain ⟨log, hlog, hsync⟩ := h.synced
  have hholds := hsync.logHolds (List.forall_mem_append.mpr ⟨hlog, hr.fits⟩)
  have hread : openedRecords s.store.file = .ok (log ++ s.store.history) := by
    rw [openedRecords, hholds.replay, foldl_snoc, List.nil_append]
  obtain ⟨store, hopen, hrec, hwal, hfree, hnext⟩ := EdgeStore.open_eq hholds
  have hrecords : store.records = s.store.records := hrec.trans hsync.records.symm
  have hsound : RecordStore.Sound store := by
    rw [← Replay.ofLog_records] at hrec
    exact (sound_ofLog_iff hrec hfree hnext).mpr (hr.ids _ hread)
  refine ⟨{ s with store }, by rw [durableStep, hopen], ⟨?_, ?_⟩, hrecords, rfl, rfl, rfl⟩
  · exact h.linked.ofStore hsound (fun _ x _ => by rw [hrecords]) fun _ x _ => by rw [hrecords]
  · exact ⟨_, hholds.fits, (EdgeStore.open_synced hholds hopen).1⟩

theorem Durable.step (h : s.Durable) {a : DurableStep} (hg : s.DurableOk a)
    (hs : s.durableStep a = some t) : t.Durable := by
  cases a with
  | call a =>
    obtain ⟨log, hlog, hsync⟩ := h.synced
    obtain ⟨w, hwal⟩ := hsync.wal
    obtain ⟨cmds, hlogs⟩ := step_logs hwal hs
    exact ⟨h.linked.step hg hs, log, hlog, hsync.logs hlogs⟩
  | restart =>
    obtain ⟨u, hu, hdurable, -⟩ := h.restart hg
    rw [hu, Option.some.injEq] at hs
    exact hs ▸ hdurable

/-- The linked edges of a node that are alive at a snapshot, the latest first. -/
def aliveAtNode (s : Adjacency) (v : NodeId) (tx : TxId) : List EdgeId :=
  (s.linkedAt .outgoing v).filter fun id => (s.store.records.get id).any fun e => e.isAlive tx

omit [Bincode Edge] in
theorem Linked.visible (h : s.Linked) (v : NodeId) (tx : TxId) :
    EdgeStore.outEdgesVisible s.store (s.firstOut v) tx = some (s.aliveAtNode v tx) := by
  have hwalk := (h.outgoing v).walk_eq (follow_null .outgoing s.store.records)
  have hcollect := EdgeStore.collect_eq .outgoing (fun e => e.isAlive tx) s.store
    ((s.linkedAt .outgoing v).length + 1) (s.firstOut v)
  rw [show walk (follow .outgoing s.store.records) ((s.linkedAt .outgoing v).length + 1)
    (s.firstOut v) = some (s.linkedAt .outgoing v) from hwalk, Option.map_some] at hcollect
  exact EdgeStore.collect_rounds hcollect

end Persistent
end Adjacency

/-- **Chains survive restarts.** In every run of a caller that links what is not linked, unlinks
what is and deletes nothing for good while it is linked, with restarts anywhere in between, the
traversals from the caller's heads list the linked edges of the node, and for a snapshot those alive
at it; a restart more succeeds and changes none of them. There are ids left at every insert, and at
every restart the log's records fit their length field and no id was used again. -/
theorem chains_survive_restarts [Bincode Edge] {steps : List DurableStep} {s : Adjacency}
    (hg : Guarded Adjacency.durableStep Adjacency.DurableOk .opened steps)
    (hrun : run Adjacency.durableStep .opened steps = some s) :
    (∀ v, s.outList v = some (s.linkedAt .outgoing v) ∧
      s.inList v = some (s.linkedAt .incoming v) ∧
      ∀ tx, EdgeStore.outEdgesVisible s.store (s.firstOut v) tx = some (s.aliveAtNode v tx)) ∧
    (s.Restartable → ∃ t, s.durableStep .restart = some t ∧
      ∀ v, t.outList v = s.outList v ∧ t.inList v = s.inList v ∧
        ∀ tx, EdgeStore.outEdgesVisible t.store (t.firstOut v) tx
          = EdgeStore.outEdgesVisible s.store (s.firstOut v) tx) := by
  have h : s.Durable := guarded_invariant (fun _ _ _ h hg hs => h.step hg hs)
    Adjacency.opened_durable hg hrun
  constructor
  · intro v
    obtain ⟨hout, hin⟩ := h.linked.lists v
    exact ⟨hout, hin, h.linked.visible v⟩
  · intro hr
    obtain ⟨t, ht, hdurable, hrecords, -, -, hlinked⟩ := h.restart hr
    have hat : ∀ side v, t.linkedAt side v = s.linkedAt side v := by
      intro side v
      rw [Adjacency.linkedAt, Adjacency.linkedAt, hlinked, hrecords]
    refine ⟨t, ht, fun v => ?_⟩
    obtain ⟨hout, hin⟩ := h.linked.lists v
    obtain ⟨hout', hin'⟩ := hdurable.linked.lists v
    refine ⟨by rw [hout', hout, hat], by rw [hin', hin, hat], fun tx => ?_⟩
    rw [hdurable.linked.visible, h.linked.visible, Adjacency.aliveAtNode, Adjacency.aliveAtNode,
      hat, hrecords]

/-- A log without deletes recycles nothing. -/
theorem neverRecycled_of_no_deletes {log : List LogRecord}
    (h : ∀ r ∈ log, r.opcode ≠ 2 ∧ r.id ≠ 0xFFFFFFFFFFFFFFFF) : NeverRecycled Edge log := by
  constructor
  · intro id hrecycled
    have hdeleted : IdEvent.deleted ∈ idEvents Edge id log := hrecycled.subset (by simp)
    obtain ⟨r, hr, hevent⟩ := List.mem_filterMap.mp hdeleted
    rw [idEvent, if_neg (h r hr).1] at hevent
    split at hevent
    · split at hevent
      · split at hevent <;> simp at hevent
      · simp at hevent
    · simp at hevent
  · intro hinserted
    obtain ⟨r, hr, hevent⟩ := List.mem_filterMap.mp hinserted
    rw [idEvent, if_neg (h r hr).2] at hevent
    simp at hevent

/-- An edge is unlinked after one restart and, after the next, linked again. -/
def unlinkBetweenRestarts : List DurableStep :=
  [.call (.insertEdge 1 2 0 0 1), .call (.insertEdge 1 1 0 0 1), .call (.link 0), .call (.link 1),
    .restart, .call (.unlink 0), .call (.softDelete 1 4), .restart, .call (.link 0)]

def Adjacency.afterRestarts : Adjacency :=
  (run Adjacency.durableStep .opened unlinkBetweenRestarts).getD .opened

set_option maxRecDepth 8000 in
theorem chains_survive_restarts_two :
    Adjacency.afterRestarts.outList 1 = some [0, 1] ∧
    EdgeStore.outEdgesVisible Adjacency.afterRestarts.store (Adjacency.afterRestarts.firstOut 1) 5
      = some [0] ∧
    ∃ t, Adjacency.afterRestarts.durableStep .restart = some t ∧ t.outList 1 = some [0, 1] := by
  have hrestart : ∀ {s : Adjacency} {log : List LogRecord},
      openedRecords s.store.file = .ok log → (∀ r ∈ s.store.history, r.Fits) →
      (∀ r ∈ log, r.opcode ≠ 2 ∧ r.id ≠ 0xFFFFFFFFFFFFFFFF) → s.Restartable := by
    intro s log hlog hfit hkept
    refine ⟨hfit, fun log' hlog' => ?_⟩
    rw [hlog, Except.ok.injEq] at hlog'
    exact hlog' ▸ neverRecycled_of_no_deletes hkept
  have hg : Guarded Adjacency.durableStep Adjacency.DurableOk .opened unlinkBetweenRestarts :=
    Guarded.cons rfl (show (0 : UInt64) < maxTxId by decide)
      (Guarded.cons rfl (show (1 : UInt64) < maxTxId by decide)
        (Guarded.cons rfl trivial (Guarded.cons rfl trivial
          (Guarded.cons rfl (hrestart rfl (by decide) (by decide))
            (Guarded.cons rfl trivial (Guarded.cons rfl trivial
              (Guarded.cons rfl (hrestart rfl (by decide) (by decide))
                (Guarded.cons rfl trivial trivial))))))))
  obtain ⟨hlists, hagain⟩ := chains_survive_restarts (s := Adjacency.afterRestarts) hg rfl
  obtain ⟨t, ht, hsame⟩ := hagain (hrestart rfl (by decide) (by decide))
  have hlist : Adjacency.afterRestarts.outList 1 = some [0, 1] := (hlists 1).1.trans (by decide)
  exact ⟨hlist, ((hlists 1).2.2 5).trans (by decide), t, ht, (hsame 1).1.trans hlist⟩

end LightGraph
