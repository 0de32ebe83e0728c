import LightGraph.Proof.SnapshotRecovery

/-!
# A whole log over a snapshot

Taking a snapshot cuts no log, so the log that is replayed over it begins with what the snapshot
has seen. In between, records that were deleted come back and cells have old values again; in the
end every key is as its last record leaves it, and that is the same record (`IsCheckpoint.replay`).
-/

set_option autoImplicit false

namespace LightGraph

open Lib

/-- The logs at an earlier moment. -/
structure DirLogs.Begins (before logs : DirLogs) : Prop where
  nodes : before.nodes <+: logs.nodes
  edges : before.edges <+: logs.edges
  props : before.props <+: logs.props

section Persistent
variable [Bincode Node] [Bincode Edge] [Bincode (Option Value)]

/-- The records of the logs, replayed by the stores' closures over what is there. -/
def Maps.replay (m : Maps) (logs : DirLogs) : Maps :=
  { nodes := (logs.nodes.foldl Replay.onRecord (Replay.over m.nodes)).records
    edges := (logs.edges.foldl Replay.onRecord (Replay.over m.edges)).records
    props := (logs.props.foldl PropReplay.onRecord (PropReplay.over m.props)).columns }

/-- Ids, counters and free lists aside, a record changes one entry of one map. -/
theorem Maps.replay_eq (m : Maps) (logs : DirLogs) :
    m.replay logs =
      { nodes := logs.nodes.foldl applyRecord m.nodes
        edges := logs.edges.foldl applyRecord m.edges
        props := logs.props.foldl replayCell m.props } := by
  rw [Maps.replay, Replay.fold_records, Replay.fold_records, PropReplay.fold_columns]
  rfl

/-- **A log over what a beginning of it has left** leaves what it would have left alone. -/
theorem Maps.replay_begun {before logs : DirLogs} (h : before.Begins logs) (m : Maps) :
    (m.replay before).replay logs = m.replay logs := by
  simp only [Maps.replay_eq]
  apply Maps.ext
  · exact IsCheckpoint.replay ⟨before.nodes, h.nodes, rfl⟩ applyRecord_absorbs
  · exact IsCheckpoint.replay ⟨before.edges, h.edges, rfl⟩ applyRecord_absorbs
  · exact IsCheckpoint.replay ⟨before.props, h.props, rfl⟩ replayCell_absorbs

/-! ## The files -/

section Files
variable {files : Files} {logs : DirLogs}

theorem Maps.replayFile_nodes (h : DataDir.LogsIn files logs) (m : Maps) :
    m.replayFile files nodesWal = .ok { m with nodes := (m.replay logs).nodes } := by
  rw [Maps.replayFile, if_pos rfl, h.nodes.replay]
  rfl

theorem Maps.replayFile_edges (h : DataDir.LogsIn files logs) (m : Maps) :
    m.replayFile files edgesWal = .ok { m with edges := (m.replay logs).edges } := by
  rw [Maps.replayFile, if_neg (by decide), if_pos rfl, h.edges.replay]
  rfl

theorem Maps.replayFile_props (h : DataDir.LogsIn files logs) (m : Maps) :
    m.replayFile files propsWal = .ok { m with props := (m.replay logs).props } := by
  rw [Maps.replayFile, if_neg (by decide), if_neg (by decide), if_pos rfl, h.props.replay]
  rfl

/-- A log that is not there is replayed as an empty one. -/
theorem Maps.replayFile_absent {f : String} (h : files.get f = none) (m : Maps) :
    m.replayFile files f = .ok m := by
  unfold Maps.replayFile
  rw [h]
  split
  · rfl
  · split
    · rfl
    · split <;> rfl

/-- Whether a log is listed makes no difference if it is left out for being absent. -/
theorem Maps.turn_of_present {f : String} {m m' : Maps} (h : m.replayFile files f = .ok m') :
    (if (files.get f).isSome then m.replayFile files f else .ok m) = .ok m' := by
  split
  · exact h
  · rename_i habsent
    rw [← h, Maps.replayFile_absent (by simpa using habsent)]

theorem Maps.restore_present (h : DataDir.LogsIn files logs) (data : SnapshotData) :
    Maps.restore files (some data)
        (SnapshotManager.walFiles.filter fun f => (files.get f).isSome)
      = .ok (data.contents.replay logs) := by
  have hnodes := Maps.turn_of_present (Maps.replayFile_nodes h data.contents)
  have hedges := Maps.turn_of_present (Maps.replayFile_edges h
    { data.contents with nodes := (data.contents.replay logs).nodes })
  have hprops := Maps.turn_of_present (Maps.replayFile_props h
    { (data.contents.replay logs) with props := data.contents.props })
  show ([nodesWal, edgesWal, propsWal].filter _).foldlM _ _ = _
  rw [Option.map_some, Option.getD_some, DataDir.foldlM_filter_cons hnodes,
    DataDir.foldlM_filter_cons hedges, DataDir.foldlM_filter_cons hprops]
  rfl

end Files

variable [Bincode SnapshotData] [SerdeJson Manifest]

/-- **A snapshot and the whole logs give what the logs alone would**: replayed over what a beginning
of the logs has left, and through a manager that has not merged any of them. -/
theorem replay_over_snapshot {before logs : DirLogs} (h : before.Begins logs) :
    (Maps.empty.replay before).replay logs = Maps.empty.replay logs ∧
    ∀ (m : SnapshotManager) (files later : Files) (input : SnapshotInput), m.nextId ≠ 0 →
      input.Lists (Maps.empty.replay before) →
      (∀ f ∈ SnapshotManager.walFiles, f ∉ m.manifest.mergedWalFiles) →
      later.get (snapshotName m.nextId)
        = (m.takeSnapshot files input).2.2.get (snapshotName m.nextId) →
      DataDir.LogsIn later logs →
      ∃ walFiles, (m.takeSnapshot files input).2.1.recover later
          = .ok (some (input.data m.nextId), walFiles) ∧
        Maps.restore later (some (input.data m.nextId)) walFiles
          = .ok (Maps.empty.replay logs) := by
  refine ⟨Maps.replay_begun h _, ?_⟩
  intro m files later input hid hlists hunmerged hfile hlogs
  have hdata : later.get (snapshotName m.nextId) = some (Bincode.bytes (input.data m.nextId)) := by
    rw [hfile, takeSnapshot_files, FiniteMap.get_put_ne _ _ (snapshotName_ne_manifest _),
      FiniteMap.get_put_self]
  have hload : SnapshotReader.loadLatest later (m.takeSnapshot files input).2.1.manifest
      = .ok (some (input.data m.nextId)) := SnapshotReader.loadLatest_of_get hid hdata
  refine ⟨_, SnapshotManager.recover_of_loadLatest hload, ?_⟩
  have hlist : SnapshotManager.walFiles.filter (fun f =>
        !(m.takeSnapshot files input).2.1.manifest.mergedWalFiles.contains f
          && (later.get f).isSome)
      = SnapshotManager.walFiles.filter fun f => (later.get f).isSome := by
    refine List.filter_congr fun f hf => ?_
    have hnot : m.manifest.mergedWalFiles.contains f = false := by
      simpa using hunmerged f hf
    show (!m.manifest.mergedWalFiles.contains f && (later.get f).isSome) = _
    rw [hnot]
    rfl
  rw [Option.isSome_some, if_pos rfl, hlist, Maps.restore_present hlogs, contents_data hlists,
    Maps.replay_begun h]

end Persistent

/-! ## A record that comes back and goes again -/

/-- The nodes' log when the snapshot is taken. -/
def firstLog : List LogRecord := [⟨1, 0, Bincode.bytes DataDir.firstNode⟩]

/-- The node is deleted, and its id is taken by another. -/
def secondLog : List LogRecord :=
  firstLog ++ [⟨2, 0, []⟩, ⟨1, 0, Bincode.bytes (Node.new 0 [2] 0 3)⟩]

/-- What is handed to the manager of an empty directory. -/
def firstInput : SnapshotInput :=
  { nodes := [DataDir.firstNode], edges := [], propColumns := [], nextNodeId := 1, nextEdgeId := 0 }

/-- The directory with the snapshot and the longer log. -/
def secondFiles : Files :=
  (DataDir.fresh.manager.takeSnapshot ∅ firstInput).2.2.put nodesWal
    (magic ++ encodeRecords secondLog)

theorem foldl_firstLog : firstLog.foldl applyRecord (∅ : FiniteMap NodeId Node)
    = (∅ : FiniteMap NodeId Node).put 0 DataDir.firstNode :=
  applyRecord_insert ∅ 0 DataDir.firstNode

theorem foldl_secondLog : secondLog.foldl applyRecord (∅ : FiniteMap NodeId Node)
    = (∅ : FiniteMap NodeId Node).put 0 (Node.new 0 [2] 0 3) := by
  rw [secondLog, List.foldl_append, foldl_firstLog, List.foldl_cons, List.foldl_cons,
    List.foldl_nil, applyRecord_delete, applyRecord_insert]
  apply FiniteMap.ext
  intro id
  rw [FiniteMap.get_put, FiniteMap.get_put, FiniteMap.get_remove, FiniteMap.get_put]
  split <;> rfl

theorem logsIn_secondFiles : DataDir.LogsIn secondFiles ⟨secondLog, [], []⟩ := by
  have habsent : ∀ f ∈ SnapshotManager.walFiles, f ≠ nodesWal → secondFiles.get f = none := by
    intro f hf hne
    rw [secondFiles, FiniteMap.get_put_ne _ _ hne, get_takeSnapshot _ _ _ hf, FiniteMap.get_empty]
  have hfits : ∀ r ∈ secondLog, r.Fits := by decide +kernel
  constructor
  · rw [secondFiles, FiniteMap.get_put_self]
    exact LogHolds.encode hfits
  · rw [habsent edgesWal edgesWal_mem (by decide)]
    exact LogHolds.empty
  · rw [habsent propsWal propsWal_mem (by decide)]
    exact LogHolds.empty

theorem replay_over_snapshot_three :
    ∃ walFiles, (DataDir.fresh.manager.takeSnapshot ∅ firstInput).2.1.recover secondFiles
        = .ok (some (firstInput.data 1), walFiles) ∧
      Maps.restore secondFiles (some (firstInput.data 1)) walFiles
        = .ok ⟨(∅ : FiniteMap NodeId Node).put 0 (Node.new 0 [2] 0 3), ∅, ∅⟩ := by
  have hbegins : DirLogs.Begins ⟨firstLog, [], []⟩ ⟨secondLog, [], []⟩ :=
    ⟨List.prefix_append _ _, List.prefix_refl _, List.prefix_refl _⟩
  have hlists : firstInput.Lists (Maps.empty.replay ⟨firstLog, [], []⟩) := by
    refine DataDir.lists_firstNode ?_
    rw [Maps.replay_eq]
    exact congrArg (Maps.mk · ∅ ∅) foldl_firstLog
  have hfile : secondFiles.get (snapshotName 1)
      = (DataDir.fresh.manager.takeSnapshot ∅ firstInput).2.2.get (snapshotName 1) :=
    FiniteMap.get_put_ne _ _ (snapshotName_ne_wal 1 nodesWal_mem)
  obtain ⟨walFiles, hrecover, hrestore⟩ := (replay_over_snapshot hbegins).2 DataDir.fresh.manager ∅
    secondFiles firstInput (by decide) hlists (fun f _ => List.not_mem_nil) hfile
    logsIn_secondFiles
  refine ⟨walFiles, hrecover, hrestore.trans (congrArg Except.ok ?_)⟩
  rw [Maps.replay_eq]
  exact congrArg (Maps.mk · ∅ ∅) foldl_secondLog

end LightGraph
