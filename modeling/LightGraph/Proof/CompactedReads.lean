import LightGraph.Proof.Recovery

/-!
# Compaction behind the readers

`compact` removes the nodes that were deleted before a stamp. To a reader whose snapshot is not
older than the stamp they were dead already, so it sees what it saw; what is removed is freed, each
id once; and the log gets a DELETE for each, which does to a replayed map what happened to the live
one.

The log is another matter for a node whose record is too long. `encode_insert` casts the length of
a record to 32 bits and writes all of it: the reader takes the rest of it for further records.
-/

set_option autoImplicit false

namespace LightGraph

open Lib

/-! ## A list of hard deletes -/

namespace RecordStore
variable {ρ : Type}

def hardDeletes (s : RecordStore ρ) (ids : List UInt64) : RecordStore ρ :=
  ids.foldl (fun s id => (s.hardDelete id).1) s

@[simp] theorem hardDeletes_cons (s : RecordStore ρ) (id : UInt64) (ids : List UInt64) :
    s.hardDeletes (id :: ids) = (s.hardDelete id).1.hardDeletes ids := rfl

theorem hardDeletes_get (ids : List UInt64) :
    ∀ (s : RecordStore ρ) (id : UInt64),
      (s.hardDeletes ids).records.get id = if id ∈ ids then none else s.records.get id := by
  induction ids with
  | nil => exact fun _ _ => rfl
  | cons x ids ih =>
    intro s id
    rw [hardDeletes_cons, ih, hardDelete_records, FiniteMap.get_remove]
    by_cases hx : id = x
    · simp [hx]
    · simp [hx]

/-- Ids of records, each named once, are freed in the order they are deleted in. -/
theorem hardDeletes_freeList {ids : List UInt64} (hnodup : ids.Nodup) :
    ∀ s : RecordStore ρ, (∀ id ∈ ids, (s.records.get id).isSome = true) →
      (s.hardDeletes ids).freeList = s.freeList ++ ids := by
  induction ids with
  | nil => exact fun s _ => (List.append_nil s.freeList).symm
  | cons x ids ih =>
    intro s hkeys
    obtain ⟨hx, hnodup⟩ := List.nodup_cons.mp hnodup
    have hrest : ∀ id ∈ ids, ((s.hardDelete x).1.records.get id).isSome = true := by
      intro id hid
      have hne : id ≠ x := by
        rintro rfl
        exact hx hid
      rw [hardDelete_records, FiniteMap.get_remove_ne _ hne]
      exact hkeys id (List.mem_cons_of_mem x hid)
    rw [hardDeletes_cons, ih hnodup _ hrest, hardDelete_freeList,
      if_pos (hkeys x List.mem_cons_self), List.append_assoc]
    rfl

theorem hardDeletes_logs [Bincode ρ] (ids : List UInt64) :
    ∀ {s : RecordStore ρ} {w : WalLog}, s.wal = some w →
      s.Logs (s.hardDeletes ids) (ids.map .delete) := by
  induction ids with
  | nil => exact fun h => Logs.refl h
  | cons x ids ih =>
    intro s w h
    have hone := hardDelete_logs h x
    obtain ⟨w', hw'⟩ := hone.isSome
    exact hone.trans (ih hw')

end RecordStore

/-! ## What compaction does -/

namespace NodeStore
variable (order : FiniteMap.IterOrder NodeId Node) (s : NodeStore) (oldestActiveTx : TxId)

theorem mem_toRemove (id : NodeId) : id ∈ s.toRemove order oldestActiveTx ↔
    ∃ n, s.records.get id = some n ∧ n.deletedTx < oldestActiveTx := by
  rw [toRemove, order.mem_filter_entries s.records fun n => n.deletedTx < oldestActiveTx]
  simp only [decide_eq_true_eq]

theorem mem_visibleNodes (tx : TxId) (id : NodeId) : id ∈ s.visibleNodes order tx ↔
    ∃ n, s.records.get id = some n ∧ n.isAlive tx = true :=
  order.mem_filter_entries s.records (fun n => n.isAlive tx) id

theorem nodup_visibleNodes (tx : TxId) : (s.visibleNodes order tx).Nodup :=
  order.nodup_filter_entries s.records fun n => n.isAlive tx

/-- As a record store, a compacted store is one with the hard deletes made. -/
theorem compact_view : (s.compact order oldestActiveTx).1.toRecordStore
    = s.toRecordStore.hardDeletes (s.toRemove order oldestActiveTx) := by
  show (List.foldl _ s _).toRecordStore = _
  generalize s.toRemove order oldestActiveTx = ids
  induction ids generalizing s with
  | nil => rfl
  | cons id ids ih => exact ih (s.hardDelete id).1

/-- Exactly the nodes that were deleted before the stamp are gone. -/
theorem compact_get (id : NodeId) : (s.compact order oldestActiveTx).1.records.get id
    = (s.records.get id).filter fun n => !decide (n.deletedTx < oldestActiveTx) := by
  rw [compact_view, RecordStore.hardDeletes_get]
  split
  · rename_i hmem
    obtain ⟨n, hget, hdead⟩ := (mem_toRemove order s oldestActiveTx id).mp hmem
    rw [hget, Option.filter_some, decide_eq_true hdead]
    rfl
  · rename_i hmem
    cases hget : s.records.get id with
    | none => rfl
    | some n =>
      have halive : ¬ n.deletedTx < oldestActiveTx := fun hdead =>
        hmem ((mem_toRemove order s oldestActiveTx id).mpr ⟨n, hget, hdead⟩)
      rw [Option.filter_some, decide_eq_false halive]
      rfl

/-- What compaction removes is dead to a reader that is not older than the stamp. -/
theorem alive_compact_iff {snapshot : TxId} (hle : oldestActiveTx ≤ snapshot) (id : NodeId)
    (n : Node) : (s.compact order oldestActiveTx).1.records.get id = some n ∧
        n.isAlive snapshot = true ↔
      s.records.get id = some n ∧ n.isAlive snapshot = true := by
  rw [compact_get, Option.filter_eq_some_iff, and_assoc]
  refine and_congr_right fun _ => and_iff_right_of_imp fun halive => ?_
  rw [Node.isAlive, aliveAt_iff] at halive
  have hlater := UInt64.lt_of_le_of_lt hle halive.2
  rw [decide_eq_false (UInt64.lt_asymm hlater)]
  rfl

end NodeStore

/-- A reader with the snapshot is shown the same nodes by both stores, in whatever order either is
iterated, and gets the same node for each. -/
structure NodeStore.SameReads (s t : NodeStore) (snapshot : TxId) : Prop where
  nodes : ∀ order order' : FiniteMap.IterOrder NodeId Node,
    (t.visibleNodes order' snapshot).Perm (s.visibleNodes order snapshot)
  count : ∀ order order' : FiniteMap.IterOrder NodeId Node,
    t.visibleCount order' snapshot = s.visibleCount order snapshot
  get : ∀ order : FiniteMap.IterOrder NodeId Node, ∀ id ∈ s.visibleNodes order snapshot,
    t.records.get id = s.records.get id

/-- From `s` to `t` the nodes deleted before the stamp have been removed, and nothing else. -/
structure NodeStore.Compacted (oldestActiveTx : TxId) (s t : NodeStore) (removed : Nat) : Prop where
  reads : ∀ snapshot, oldestActiveTx ≤ snapshot → s.SameReads t snapshot
  records : ∀ id, t.records.get id
    = (s.records.get id).filter fun n => !decide (n.deletedTx < oldestActiveTx)
  /-- the ids of the removed nodes, each once -/
  freed : ∃ ids : List NodeId, ids.Nodup ∧
    (∀ id, id ∈ ids ↔ ∃ n, s.records.get id = some n ∧ n.deletedTx < oldestActiveTx) ∧
    removed = ids.length ∧ t.freeList = s.freeList ++ ids

theorem NodeStore.sameReads_of_alive {s t : NodeStore} {snapshot : TxId}
    (h : ∀ id n, t.records.get id = some n ∧ n.isAlive snapshot = true ↔
      s.records.get id = some n ∧ n.isAlive snapshot = true) : s.SameReads t snapshot := by
  have hperm : ∀ order order' : FiniteMap.IterOrder NodeId Node,
      (t.visibleNodes order' snapshot).Perm (s.visibleNodes order snapshot) := by
    intro order order'
    refine (List.perm_ext_iff_of_nodup (t.nodup_visibleNodes order' snapshot)
      (s.nodup_visibleNodes order snapshot)).mpr fun id => ?_
    rw [mem_visibleNodes, mem_visibleNodes]
    exact exists_congr (h id)
  refine ⟨hperm, fun order order' => ?_, fun order id hid => ?_⟩
  · have hlen := (hperm order order').length_eq
    rw [visibleNodes, visibleNodes, List.length_map, List.length_map] at hlen
    exact hlen
  · obtain ⟨n, hget, halive⟩ := (s.mem_visibleNodes order snapshot id).mp hid
    rw [hget]
    exact ((h id n).mpr ⟨hget, halive⟩).1

theorem NodeStore.compacted (order : FiniteMap.IterOrder NodeId Node)
    (s : NodeStore) (oldestActiveTx : TxId) :
    NodeStore.Compacted oldestActiveTx s (s.compact order oldestActiveTx).1
      (s.compact order oldestActiveTx).2 := by
  have hnodup : (s.toRemove order oldestActiveTx).Nodup :=
    order.nodup_filter_entries s.records fun n => n.deletedTx < oldestActiveTx
  refine ⟨fun snapshot hle => ?_, s.compact_get order oldestActiveTx,
    s.toRemove order oldestActiveTx, hnodup, s.mem_toRemove order oldestActiveTx, rfl, ?_⟩
  · exact NodeStore.sameReads_of_alive (s.alive_compact_iff order oldestActiveTx hle)
  · rw [compact_view]
    refine RecordStore.hardDeletes_freeList hnodup _ fun id hid => ?_
    obtain ⟨n, hget, -⟩ := (s.mem_toRemove order oldestActiveTx id).mp hid
    rw [hget]
    rfl

/-! ## The log -/

/-- Compactions are hard deletes, so a run with compactions is one of single calls. -/
theorem NodeStore.calls_eq [Bincode Node] (calls : List NodeStoreCall) :
    ∀ s : NodeStore, ∃ ops : List NodeOp, calls.foldl NodeStore.call s
      = ops.foldl NodeStore.perform s := by
  induction calls with
  | nil => exact fun _ => ⟨[], rfl⟩
  | cons c calls ih =>
    intro s
    obtain ⟨ops, hops⟩ := ih (s.call c)
    rw [List.foldl_cons, hops]
    cases c with
    | op op => exact ⟨op :: ops, rfl⟩
    | compact order oldestActiveTx =>
      refine ⟨(s.toRemove order oldestActiveTx).map .hardDelete ++ ops, ?_⟩
      rw [List.foldl_append, List.foldl_map]
      rfl

/-- A store that agrees with its log is reopened as it is once it has been compacted. -/
theorem NodeStore.reopen_compacted [Bincode Node] {log : List LogRecord} {s : NodeStore}
    (hsync : s.toRecordStore.Synced log) (hfit : ∀ r ∈ log ++ s.history, r.Fits)
    (order : FiniteMap.IterOrder NodeId Node) (oldestActiveTx : TxId) :
    ∃ u, NodeStore.open (s.compact order oldestActiveTx).1.file = .ok u ∧
      u.records = (s.compact order oldestActiveTx).1.records := by
  obtain ⟨w, hw⟩ := hsync.wal
  have hlogs := RecordStore.hardDeletes_logs (s.toRemove order oldestActiveTx) hw
  rw [← compact_view] at hlogs
  have hsync' := hsync.logs hlogs
  have hfit' : ∀ r ∈ log ++ (s.compact order oldestActiveTx).1.history, r.Fits := by
    intro r hr
    rw [hlogs.history, ← List.append_assoc] at hr
    rcases List.mem_append.mp hr with hr | hr
    · exact hfit r hr
    · -- a DELETE is nine bytes
      obtain ⟨cmd, hcmd, hrecord⟩ := List.mem_filterMap.mp hr
      obtain ⟨id, -, rfl⟩ := List.mem_map.mp hcmd
      obtain rfl := Option.some.inj hrecord
      exact (by decide : 1 + 8 + 0 < 2 ^ 32)
  obtain ⟨u, hu, hrecords, -⟩ := NodeStore.open_eq (hsync'.logHolds hfit')
  exact ⟨u, hu, hrecords.trans hsync'.records.symm⟩

/-- **Compaction is invisible to active readers**, and what it removes is what was deleted before
the stamp. The log of a persistent store stands for the compacted map as long as every record sent
to it has a length of 32 bits. -/
theorem compaction_invisible [Bincode Node] :
    (∀ (s : NodeStore) (order : FiniteMap.IterOrder NodeId Node) (oldestActiveTx : TxId),
      NodeStore.Compacted oldestActiveTx s (s.compact order oldestActiveTx).1
        (s.compact order oldestActiveTx).2) ∧
    ∀ (file : Bytes) (log : List LogRecord) (s₀ s : NodeStore) (calls : List NodeStoreCall)
      (order : FiniteMap.IterOrder NodeId Node) (oldestActiveTx : TxId),
      LogHolds file log → NodeStore.open file = .ok s₀ → calls.foldl NodeStore.call s₀ = s →
      (∀ r ∈ s.history, r.Fits) →
      ∃ u, NodeStore.open (s.compact order oldestActiveTx).1.file = .ok u ∧
        u.records = (s.compact order oldestActiveTx).1.records := by
  refine ⟨fun s order oldestActiveTx => s.compacted order oldestActiveTx, ?_⟩
  intro file log s₀ s calls order oldestActiveTx hfile hopen hrun hfit
  obtain ⟨ops, hops⟩ := NodeStore.calls_eq calls s₀
  have hsync := NodeStore.loggedCalls.synced (NodeStore.open_synced hfile hopen).1 ops
  rw [← hops, hrun] at hsync
  have hfits : ∀ r ∈ log ++ s.history, r.Fits := List.forall_mem_append.mpr ⟨hfile.fits, hfit⟩
  exact NodeStore.reopen_compacted hsync hfits order oldestActiveTx

/-- Two nodes, deleted by transactions 10 and 20. -/
def NodeStore.twoDeleted : NodeStore :=
  [.op (.insertNode [1] 0 1), .op (.insertNode [2] 0 1), .op (.softDelete 0 10),
    .op (.softDelete 1 20)].foldl NodeStore.call NodeStore.fresh

theorem compaction_invisible_two :
    NodeStore.twoDeleted.SameReads
      (NodeStore.twoDeleted.compact (FiniteMap.IterOrder.choice NodeId Node) 15).1 15 ∧
    ∃ u, NodeStore.open
        (NodeStore.twoDeleted.compact (FiniteMap.IterOrder.choice NodeId Node) 15).1.file = .ok u ∧
      u.records.get 0 = none ∧ (u.records.get 1).isSome = true := by
  obtain ⟨hcompacted, hreopen⟩ := compaction_invisible
  have h := hcompacted NodeStore.twoDeleted (FiniteMap.IterOrder.choice NodeId Node) 15
  obtain ⟨u, hu, hrecords⟩ := hreopen [] [] NodeStore.fresh NodeStore.twoDeleted _
    (FiniteMap.IterOrder.choice NodeId Node) 15 LogHolds.empty NodeStore.open_nil rfl (by decide)
  refine ⟨h.reads 15 (by decide), u, hu, ?_, ?_⟩
  · rw [hrecords, h.records]
    rfl
  · rw [hrecords, h.records]
    rfl

/-! ## Records of more than 32 bits -/

/-- A length that is small once it is cut ends the log. -/
theorem NodeStore.open_too_short [Bincode Node] {r : LogRecord}
    (hcut : (1 + 8 + r.payload.length) % 2 ^ 32 < 9) (rs : List LogRecord) :
    NodeStore.open (magic ++ encodeRecords (r :: rs))
      = .error (.invalidData "record too short") := by
  have hread : (walFormat.read (encodeRecords (r :: rs))).ending = .refused := by
    rw [encodeRecords, List.map_cons, FrameFormat.encodeAll_cons,
      walFormat.read_encode_eq walFormat_width_pos, LogRecord.length_body]
    have hrefused : walFormat.bodySize (walFormat.field (1 + 8 + r.payload.length)
        % 256 ^ walFormat.width) = none := if_pos hcut
    rw [hrefused]
  have hlen : (magic ++ encodeRecords (r :: rs)).length > 4 := by
    rw [List.length_append]
    have hpos : encodeRecords (r :: rs) ≠ [] := fun hnil =>
      absurd (encodeRecords_eq_nil_iff.mp hnil) (List.cons_ne_nil r rs)
    exact Nat.lt_add_of_pos_right (List.length_pos_of_ne_nil hpos)
  rw [NodeStore.open, RecordStore.openReplay, replayIfAny, if_pos hlen, replayWal_magic, hread]
  rfl

/-- The length of such a node's record is cut to 1. -/
theorem NodeStore.long_labels_unreadable {labels : List LabelId}
    (hlen : labels.length = 2 ^ 30 - 15) (order : FiniteMap.IterOrder NodeId Node) :
    NodeStore.open ((NodeStore.fresh.perform (.insertNode labels 0 1)).compact order 0).1.file
      = .error (.invalidData "record too short") := by
  obtain ⟨s, hs⟩ : ∃ s, NodeStore.fresh.perform (.insertNode labels 0 1) = s := ⟨_, rfl⟩
  have hlogs : NodeStore.fresh.toRecordStore.Logs s.toRecordStore
      [.insert 0 (Bincode.bytes (Node.new 0 labels 0 1))] := by
    rw [← hs]
    exact RecordStore.insert_logs (s := NodeStore.fresh.toRecordStore) rfl
      fun id => Node.new id labels 0 1
  have hnone : s.toRemove order 0 = [] := by
    apply List.eq_nil_iff_forall_not_mem.mpr
    intro id hid
    obtain ⟨n, -, hlt⟩ := (s.mem_toRemove order 0 id).mp hid
    exact absurd hlt (UInt64.not_lt.mpr (UInt64.zero_le))
  have hfile : (s.compact order 0).1.file
      = magic ++ encodeRecords [⟨1, 0, Bincode.bytes (Node.new 0 labels 0 1)⟩] := by
    rw [show (s.compact order 0).1.toRecordStore = s.toRecordStore by
      rw [NodeStore.compact_view, hnone]; rfl, hlogs.file, encodeCmds_eq]
    rfl
  rw [hs, hfile]
  apply NodeStore.open_too_short
  have hbytes := Node.length_bytes (Node.new 0 labels 0 1)
    (show labels.length < _ by rw [hlen]; decide)
  rw [show (Node.new 0 labels 0 1).labels.length = labels.length from rfl, hlen] at hbytes
  show (1 + 8 + (Bincode.bytes (Node.new 0 labels 0 1)).length) % 2 ^ 32 < 9
  rw [hbytes]
  decide

/-- A node with 2^30 - 15 labels, and a compaction that removes nothing. -/
theorem long_record_unreadable :
    ¬ ∀ (s₀ s : NodeStore) (calls : List NodeStoreCall)
      (order : FiniteMap.IterOrder NodeId Node) (oldestActiveTx : TxId),
      NodeStore.open [] = .ok s₀ → calls.foldl NodeStore.call s₀ = s →
      ∃ u, NodeStore.open (s.compact order oldestActiveTx).1.file = .ok u ∧
        u.records = (s.compact order oldestActiveTx).1.records := by
  intro h
  have hlen : (List.replicate (2 ^ 30 - 15) (0 : LabelId)).length = 2 ^ 30 - 15 :=
    List.length_replicate
  generalize List.replicate (2 ^ 30 - 15) (0 : LabelId) = labels at hlen
  obtain ⟨u, hu, -⟩ := h NodeStore.fresh _ [.op (.insertNode labels 0 1)]
    (FiniteMap.IterOrder.choice NodeId Node) 0 NodeStore.open_nil rfl
  exact absurd (hu.symm.trans (NodeStore.long_labels_unreadable hlen _)) nofun

end LightGraph
