import LightGraph.DataDir
import LightGraph.Lib.Checkpoint
import LightGraph.Proof.PropCells
import LightGraph.Proof.UnlinkLog
import LightGraph.SnapshotFormat

/-!
# What a snapshot and the logs bring back

A log is never cut: the three files keep every record since the first one. So replaying a whole
log over the snapshot is right even though the snapshot has seen a part of it — a record done
again makes up for the first time (`applyRecord_absorbs`, `replayCell_absorbs`) — and a log that
is left out is right only while its store is as it was at the snapshot.

`recover` leaves a log out in two cases. A file that was merged once stays merged: its name is
kept in the manifest for good, while the file goes on growing. And where there is no snapshot, no
log is listed at all. `NothingLost` is the condition under which neither matters, and it is exact.
-/

set_option autoImplicit false

namespace LightGraph

open Lib

/-! ## Records and cells done again -/

section Record
variable {ρ : Type} [Bincode ρ]

theorem applyRecord_cases (r : LogRecord) :
    (∀ m : FiniteMap UInt64 ρ, applyRecord m r = m) ∨
    ∃ o : Option ρ, ∀ m, applyRecord m r = m.alter r.id fun _ => o := by
  unfold applyRecord
  by_cases hins : r.opcode = 1
  · simp only [if_pos hins]
    cases (Bincode.deserialize r.payload : Option ρ) with
    | none => exact Or.inl fun _ => rfl
    | some rec => exact Or.inr ⟨some rec, fun _ => rfl⟩
  · simp only [if_neg hins]
    by_cases hdel : r.opcode = 2
    · simp only [if_pos hdel]
      exact Or.inr ⟨none, fun _ => rfl⟩
    · simp only [if_neg hdel]
      exact Or.inl fun _ => trivial

theorem applyRecord_absorbs : Absorbs (applyRecord (ρ := ρ)) := by
  constructor
  · intro m a
    rcases applyRecord_cases (ρ := ρ) a with ha | ⟨o, ha⟩
    · rw [ha, ha]
    · rw [ha, ha]
      exact FiniteMap.alter_again m _ fun _ => rfl
  · intro m a b
    rcases applyRecord_cases (ρ := ρ) a with ha | ⟨o, ha⟩
    · simp only [ha]
    · rcases applyRecord_cases (ρ := ρ) b with hb | ⟨o', hb⟩
      · simp only [ha, hb]
        exact FiniteMap.alter_again m _ fun _ => rfl
      · simp only [ha, hb]
        exact FiniteMap.alter_between m (fun _ => rfl) fun _ _ => rfl

end Record

namespace PropertyColumn

theorem put_again (col : PropertyColumn) (row : UInt32) (val : Option Value) :
    (col.put row val).put row val = col.put row val := by
  apply ext_getElem?
  intro i
  simp only [getElem?_put]
  grind

theorem put_between (col : PropertyColumn) (row row' : UInt32) (val val' : Option Value) :
    ((col.put row val).put row' val').put row val = (col.put row' val').put row val := by
  apply ext_getElem?
  intro i
  simp only [getElem?_put]
  grind

end PropertyColumn

section Cell
variable [Bincode (Option Value)]

/-- What a record does to the columns it is replayed into. -/
def replayCell (columns : Columns) (r : LogRecord) : Columns :=
  ((PropReplay.over columns).onRecord r).columns

/-- A record writes one cell or nothing, whatever there was. -/
theorem PropReplay.onRecord_cases (r : LogRecord) :
    (∀ st : PropReplay, (st.onRecord r).columns = st.columns) ∨
    ∃ label prop row value, ∀ st : PropReplay,
      (st.onRecord r).columns = st.columns.putCell label prop row value := by
  unfold PropReplay.onRecord
  by_cases hop : r.opcode = 1 ∧ r.payload.length ≥ 10
  · simp only [if_pos hop]
    by_cases hlen : r.payload.length < 5 + ((r.payload.drop 4).headD 0).toNat + 4
    · simp only [if_pos hlen]
      exact Or.inl fun _ => trivial
    · simp only [if_neg hlen]
      cases (Bincode.deserialize (r.payload.drop (5 + ((r.payload.drop 4).headD 0).toNat + 4)) :
        Option (Option Value)) with
      | none => exact Or.inl fun _ => rfl
      | some value => exact Or.inr ⟨_, _, _, value, fun _ => rfl⟩
  · simp only [if_neg hop]
    exact Or.inl fun _ => trivial

theorem replayCell_cases (r : LogRecord) :
    (∀ columns, replayCell columns r = columns) ∨
    ∃ label prop row value, ∀ columns : Columns,
      replayCell columns r = columns.putCell label prop row value := by
  rcases PropReplay.onRecord_cases r with h | ⟨label, prop, row, value, h⟩
  · exact Or.inl fun columns => h (PropReplay.over columns)
  · exact Or.inr ⟨label, prop, row, value, fun columns => h (PropReplay.over columns)⟩

theorem PropReplay.onRecord_columns (st : PropReplay) (r : LogRecord) :
    (st.onRecord r).columns = replayCell st.columns r := by
  rcases PropReplay.onRecord_cases r with h | ⟨label, prop, row, value, h⟩
  · exact (h st).trans (h (PropReplay.over st.columns)).symm
  · exact (h st).trans (h (PropReplay.over st.columns)).symm

theorem PropReplay.fold_columns (rs : List LogRecord) : ∀ st : PropReplay,
    (rs.foldl PropReplay.onRecord st).columns = rs.foldl replayCell st.columns := by
  induction rs with
  | nil => exact fun _ => rfl
  | cons r rs ih =>
    intro st
    rw [List.foldl_cons, List.foldl_cons, ih, PropReplay.onRecord_columns]

omit [Bincode (Option Value)] in
theorem Columns.putCell_again (columns : Columns) (label : LabelId) (prop : String)
    (row : UInt32) (val : Option Value) :
    (columns.putCell label prop row val).putCell label prop row val
      = columns.putCell label prop row val := by
  simp only [Columns.putCell_eq_alter]
  refine FiniteMap.alter_again columns _ fun col => ?_
  rw [Option.getD_some, PropertyColumn.put_again]

omit [Bincode (Option Value)] in
theorem Columns.putCell_between (columns : Columns) (label label' : LabelId) (prop prop' : String)
    (row row' : UInt32) (val val' : Option Value) :
    ((columns.putCell label prop row val).putCell label' prop' row' val').putCell label prop row val
      = (columns.putCell label' prop' row' val').putCell label prop row val := by
  simp only [Columns.putCell_eq_alter]
  refine FiniteMap.alter_between columns (fun col => ?_) fun _ col => ?_
  · rw [Option.getD_some, PropertyColumn.put_again]
  · simp only [Option.getD_some, PropertyColumn.put_between]

theorem replayCell_absorbs : Absorbs replayCell := by
  constructor
  · intro columns a
    rcases replayCell_cases a with ha | ⟨label, prop, row, value, ha⟩
    · rw [ha, ha]
    · rw [ha, ha, Columns.putCell_again]
  · intro columns a b
    rcases replayCell_cases a with ha | ⟨label, prop, row, value, ha⟩
    · simp only [ha]
    · rcases replayCell_cases b with hb | ⟨label', prop', row', value', hb⟩
      · simp only [ha, hb, Columns.putCell_again]
      · simp only [ha, hb, Columns.putCell_between]

end Cell

/-! ## A store and what it was at the snapshot -/

namespace RecordStore
variable {ρ : Type} [Bincode ρ] {s t : RecordStore ρ} {snap : FiniteMap UInt64 ρ}

/-- The log replays to the store, and what was there at the snapshot is a checkpoint of it. -/
def Recorded (s : RecordStore ρ) (snap : FiniteMap UInt64 ρ) : Prop :=
  ∃ log, s.Synced log ∧ (∀ r ∈ log ++ s.history, r.Fits) ∧
    IsCheckpoint applyRecord ∅ (log ++ s.history) snap

theorem Recorded.logs {cmds : List WalCmd} (h : s.Recorded snap) (hlogs : s.Logs t cmds)
    (hfit : ∀ r ∈ t.history, r.Fits) : t.Recorded snap := by
  obtain ⟨log, hsync, hall, hsnap⟩ := h
  refine ⟨log, hsync.logs hlogs, fun r hr => ?_, hsnap.mono ?_⟩
  · rcases List.mem_append.mp hr with hr | hr
    · exact hall r (List.mem_append_left _ hr)
    · exact hfit r hr
  · rw [hlogs.history, ← List.append_assoc]
    exact List.prefix_append _ _

theorem Recorded.snapshot (h : s.Recorded snap) : s.Recorded s.records := by
  obtain ⟨log, hsync, hall, -⟩ := h
  exact ⟨log, hsync, hall, hsync.records ▸ isCheckpoint_foldl applyRecord ∅ _⟩

/-- The whole log, replayed over the checkpoint. -/
theorem Recorded.replay (h : s.Recorded snap) :
    ∃ st, replayIfAny Replay.onRecord s.file (Replay.over snap) = .ok st ∧
      st.records = s.records := by
  obtain ⟨log, hsync, hall, hsnap⟩ := h
  refine ⟨_, (hsync.logHolds hall).replay _ _, ?_⟩
  rw [Replay.fold_records, hsync.records]
  exact hsnap.replay applyRecord_absorbs

/-- A store opened on a log with this checkpoint. -/
theorem Synced.recorded {log : List LogRecord} (h : t.Synced log) (hnil : t.history = [])
    (hfit : ∀ r ∈ log, r.Fits) (hsnap : IsCheckpoint applyRecord ∅ log snap) :
    t.Recorded snap := by
  refine ⟨log, h, ?_, ?_⟩
  · rw [hnil, List.append_nil]
    exact hfit
  · rw [hnil, List.append_nil]
    exact hsnap

/-- Another process opens the store. -/
theorem Recorded.reopen (h : s.Recorded snap)
    (hopen : ∀ log, LogHolds s.file log → t.Synced log ∧ t.history = []) : t.Recorded snap := by
  obtain ⟨log, hsync, hall, hsnap⟩ := h
  obtain ⟨hsync', hnil⟩ := hopen _ (hsync.logHolds hall)
  exact hsync'.recorded hnil hall hsnap

end RecordStore

namespace PropStore
variable [Bincode (Option Value)] {s t : PropStore} {snap : Columns}

/-- The same of the columns. -/
def Recorded (s : PropStore) (snap : Columns) : Prop :=
  ∃ log, s.Logged log ∧ s.Mirrored log ∧ (∀ r ∈ log ++ s.history, r.Fits) ∧
    IsCheckpoint replayCell ∅ (log ++ s.history) snap

theorem Mirrored.columns {log : List LogRecord} (h : s.Mirrored log) :
    s.columns = (log ++ s.history).foldl replayCell ∅ := by
  rw [show s.columns = _ from h, PropReplay.fold_columns]
  rfl

/-! ### What a call adds to the log -/

theorem foldl_insertProp_history (label : LabelId) (row : UInt32) :
    ∀ {props : List (String × Value)} {s : PropStore} {log : List LogRecord}, s.Logged log →
      s.history <+:
        (props.foldl (fun s p => s.insertProp label p.1 row (some p.2)) s).history := by
  intro props
  induction props with
  | nil => exact fun _ => List.prefix_refl _
  | cons p props ih =>
    intro s log hlog
    obtain ⟨w, hw⟩ := hlog.wal
    refine List.IsPrefix.trans ?_ (ih (hlog.insertProp label p.1 row (some p.2)))
    rw [insertProp_history hw]
    exact List.prefix_append _ _

theorem perform_history {log : List LogRecord} (hlog : s.Logged log) (op : PropOp) :
    s.history <+: (s.perform op).history := by
  obtain ⟨w, hw⟩ := hlog.wal
  cases op with
  | insertProp label prop row value =>
    show _ <+: (s.insertProp label prop row value).history
    rw [insertProp_history hw]
    exact List.prefix_append _ _
  | setProp label prop row value =>
    show _ <+: (s.setProp label prop row value).1.history
    by_cases hrow : s.HasRow label prop row
    · rw [setProp_of_hasRow hrow, insertProp_history hw]
      exact List.prefix_append _ _
    · have hwal := (setProp_of_not_hasRow hrow value).2
      rw [history, history, sent, sent, hwal]
  | insertRow label props =>
    exact foldl_insertProp_history label _
      (show (s.allocRow label).2.Logged log from ⟨hlog.wal, hlog.file⟩)

theorem Recorded.perform {op : PropOp} (h : s.Recorded snap) (hop : op.LogsShort s)
    (hfit : ∀ r ∈ (s.perform op).history, r.Fits) : (s.perform op).Recorded snap := by
  obtain ⟨log, hlog, hmir, hall, hsnap⟩ := h
  obtain ⟨hlog', hmir'⟩ := perform_mirrored hlog hmir hop
  refine ⟨log, hlog', hmir', fun r hr => ?_, hsnap.mono ?_⟩
  · rcases List.mem_append.mp hr with hr | hr
    · exact hall r (List.mem_append_left _ hr)
    · exact hfit r hr
  · exact (List.prefix_append_right_inj log).mpr (perform_history hlog op)

theorem Recorded.snapshot (h : s.Recorded snap) : s.Recorded s.columns := by
  obtain ⟨log, hlog, hmir, hall, -⟩ := h
  exact ⟨log, hlog, hmir, hall, hmir.columns ▸ isCheckpoint_foldl replayCell ∅ _⟩

theorem Recorded.replay (h : s.Recorded snap) :
    ∃ st, replayIfAny PropReplay.onRecord s.file (PropReplay.over snap) = .ok st ∧
      st.columns = s.columns := by
  obtain ⟨log, hlog, hmir, hall, hsnap⟩ := h
  refine ⟨_, (hlog.logHolds hall).replay _ _, ?_⟩
  rw [PropReplay.fold_columns, hmir.columns]
  exact hsnap.replay replayCell_absorbs

/-- A store opened on a log with this checkpoint. -/
theorem recorded_of_open {file : Bytes} {log : List LogRecord} (hfile : LogHolds file log)
    (hsnap : IsCheckpoint replayCell ∅ log snap) (hopen : PropStore.open file = .ok t) :
    t.Recorded snap := by
  obtain ⟨t', ht', hlog, hmir, hnil⟩ := PropStore.open_eq hfile
  obtain rfl : t' = t := Except.ok.inj (ht'.symm.trans hopen)
  refine ⟨log, hlog, hmir, ?_, ?_⟩
  · rw [hnil, List.append_nil]
    exact hfile.fits
  · rw [hnil, List.append_nil]
    exact hsnap

theorem Recorded.reopen (h : s.Recorded snap) (hopen : PropStore.open s.file = .ok t) :
    t.Recorded snap := by
  obtain ⟨log, hlog, hmir, hall, hsnap⟩ := h
  exact recorded_of_open (hlog.logHolds hall) hsnap hopen

end PropStore

/-! ## The files beside each other -/

theorem nodesWal_mem : nodesWal ∈ SnapshotManager.walFiles := by decide
theorem edgesWal_mem : edgesWal ∈ SnapshotManager.walFiles := by decide
theorem propsWal_mem : propsWal ∈ SnapshotManager.walFiles := by decide

theorem snapshotName_ne_wal (id : UInt64) {walFile : String}
    (h : walFile ∈ SnapshotManager.walFiles) : snapshotName id ≠ walFile := by
  refine snapshotName_ne id ?_
  have hall : ∀ f ∈ SnapshotManager.walFiles, f.toList.head? ≠ some 's' := by decide
  exact hall walFile h

theorem wal_ne_manifest {walFile : String} (h : walFile ∈ SnapshotManager.walFiles) :
    walFile ≠ Manifest.fileName := by
  have hall : ∀ f ∈ SnapshotManager.walFiles, f ≠ Manifest.fileName := by decide
  exact hall walFile h

/-- A log is neither the snapshot's file nor the manifest's. -/
theorem get_takeSnapshot [Bincode SnapshotData] [SerdeJson Manifest] (m : SnapshotManager)
    (files : Files) (input : SnapshotInput) {walFile : String}
    (hwal : walFile ∈ SnapshotManager.walFiles) :
    (m.takeSnapshot files input).2.2.get walFile = files.get walFile := by
  rw [takeSnapshot_files, FiniteMap.get_put_ne _ _ (wal_ne_manifest hwal),
    FiniteMap.get_put_ne _ _ (snapshotName_ne_wal _ hwal).symm]

theorem mergeWal_files [SerdeJson Manifest] (m : SnapshotManager) (files : Files)
    (walFile : String) :
    (m.mergeWal files walFile).2
      = files.put Manifest.fileName
          (SerdeJson.toStringPretty (m.mergeWal files walFile).1.manifest) :=
  apply_writeInPlace _ _ _

/-- Loading what was listed. -/
theorem contents_data {input : SnapshotInput} {m : Maps} (h : input.Lists m) (id : UInt64) :
    (input.data id).contents = m := by
  apply Maps.ext
  · refine FiniteMap.ofList_eq fun k n => (h.nodes k n).trans ?_
    exact ⟨fun hn => ⟨n, hn.1, hn.2, rfl⟩, fun ⟨_, hmem, hkey, heq⟩ => heq ▸ ⟨hmem, hkey⟩⟩
  · refine FiniteMap.ofList_eq fun k e => (h.edges k e).trans ?_
    exact ⟨fun he => ⟨e, he.1, he.2, rfl⟩, fun ⟨_, hmem, hkey, heq⟩ => heq ▸ ⟨hmem, hkey⟩⟩
  · refine FiniteMap.ofList_eq fun k col => (h.props k.1 k.2 col).trans ?_
    constructor
    · intro hcol
      exact ⟨_, hcol, rfl, rfl⟩
    · rintro ⟨⟨label, prop, values⟩, hmem, rfl, rfl⟩
      exact hmem

/-- What a fresh manager finds: a manifest, and the snapshot it names. -/
structure HoldsSnapshot [Bincode SnapshotData] [SerdeJson Manifest] (files : Files)
    (manifest : Manifest) (snap : Maps) : Prop where
  read : Manifest.read files = .ok manifest
  snapshot : manifest.latestSnapshotId ≠ 0 → ∃ data : SnapshotData,
    files.get (snapshotName manifest.latestSnapshotId) = some (Bincode.bytes data) ∧
      data.contents = snap

section HoldsSnapshot
variable [Bincode SnapshotData] [SerdeJson Manifest] {files : Files} {manifest : Manifest}
  {snap : Maps}

/-- A log that grows touches neither. -/
theorem HoldsSnapshot.put_wal (h : HoldsSnapshot files manifest snap) {walFile : String}
    (hwal : walFile ∈ SnapshotManager.walFiles) (data : Bytes) :
    HoldsSnapshot (files.put walFile data) manifest snap := by
  constructor
  · have hget : (files.put walFile data).get Manifest.fileName = files.get Manifest.fileName :=
      FiniteMap.get_put_ne _ _ (wal_ne_manifest hwal).symm
    rw [Manifest.read, hget]
    exact h.read
  · intro hid
    obtain ⟨data', hfile, hcontents⟩ := h.snapshot hid
    exact ⟨data', (FiniteMap.get_put_ne _ _ (snapshotName_ne_wal _ hwal)).trans hfile, hcontents⟩

/-- A merge rewrites the manifest, and the snapshot it names is the same. -/
theorem HoldsSnapshot.put_manifest (h : HoldsSnapshot files manifest snap) {manifest' : Manifest}
    (hid : manifest'.latestSnapshotId = manifest.latestSnapshotId) :
    HoldsSnapshot (files.put Manifest.fileName (SerdeJson.toStringPretty manifest')) manifest'
      snap := by
  refine ⟨Manifest.read_of_get (FiniteMap.get_put_self _ _ _), fun hzero => ?_⟩
  rw [hid] at hzero ⊢
  obtain ⟨data, hfile, hcontents⟩ := h.snapshot hzero
  exact ⟨data, (FiniteMap.get_put_ne _ _ (snapshotName_ne_manifest _)).trans hfile, hcontents⟩

end HoldsSnapshot

/-! ## A run -/

namespace DataDir

/-- The stores, the files and what is on disk of the last snapshot fit together. -/
structure Sound [Bincode Node] [Bincode Edge] [Bincode (Option Value)] [Bincode SnapshotData]
    [SerdeJson Manifest] (d : DataDir) : Prop where
  nodes : d.nodes.Recorded d.atSnapshot.nodes
  edges : RecordStore.Recorded d.edges d.atSnapshot.edges
  props : d.props.Recorded d.atSnapshot.props
  nodesFile : d.files.get nodesWal = some d.nodes.file
  edgesFile : d.files.get edgesWal = some d.edges.file
  propsFile : d.files.get propsWal = some d.props.file
  disk : HoldsSnapshot d.files d.manager.manifest d.atSnapshot

/-- What the steps of a run are meant to be: a snapshot is taken of what the stores contain, and
a log is merged when the last snapshot has all of it. -/
def Intended (d : DataDir) : DataDirStep → Prop
  | .takeSnapshot input => input.Lists d.contents
  | .mergeWal walFile => walFile ∈ SnapshotManager.walFiles ∧
      d.manager.manifest.latestSnapshotId ≠ 0 ∧ d.contents.SameAt d.atSnapshot walFile
  | _ => True

section Persistent
variable [Bincode Node] [Bincode Edge] [Bincode (Option Value)]

/-- The log can be read back: a record's length fits its four bytes and a name's its one. -/
def Loggable (d : DataDir) : DataDirStep → Prop
  | .node op => ∀ r ∈ (d.nodes.perform op).history, r.Fits
  | .edge c => ∀ t, EdgeStore.performCall d.edges c = some t →
      ∀ r ∈ RecordStore.history t, r.Fits
  | .prop op => op.LogsShort d.props ∧ ∀ r ∈ (d.props.perform op).history, r.Fits
  | _ => True

variable [Bincode SnapshotData] [SerdeJson Manifest]

/-- The steps of a run, each under both conditions. -/
def Proper (d : DataDir) (step : DataDirStep) : Prop := d.Intended step ∧ d.Loggable step

/-- Nothing that is not in the last snapshot is in a log that is left out. -/
def NothingLost (d : DataDir) : Prop :=
  (d.manager.manifest.latestSnapshotId = 0 → d.contents = Maps.empty) ∧
  (d.manager.manifest.latestSnapshotId ≠ 0 →
    ∀ walFile ∈ d.manager.manifest.mergedWalFiles, d.contents.SameAt d.atSnapshot walFile)

/-! ### One step -/

theorem Sound.node {d : DataDir} (h : d.Sound) {op : NodeOp}
    (hfit : ∀ r ∈ (d.nodes.perform op).history, r.Fits) :
    ({ d with nodes := d.nodes.perform op,
              files := d.files.put nodesWal (d.nodes.perform op).file } : DataDir).Sound := by
  obtain ⟨log, hsync, hrest⟩ := h.nodes
  obtain ⟨w, hw⟩ := hsync.wal
  obtain ⟨cmds, -, hlogs⟩ := NodeStore.perform_logs hw op
  exact { nodes := h.nodes.logs hlogs hfit
          edges := h.edges
          props := h.props
          nodesFile := FiniteMap.get_put_self _ _ _
          edgesFile := (FiniteMap.get_put_ne _ _ (by decide)).trans h.edgesFile
          propsFile := (FiniteMap.get_put_ne _ _ (by decide)).trans h.propsFile
          disk := h.disk.put_wal nodesWal_mem _ }

theorem Sound.edge {d : DataDir} (h : d.Sound) {c : EdgeCall} {t : EdgeStore}
    (hcall : EdgeStore.performCall d.edges c = some t)
    (hfit : ∀ r ∈ RecordStore.history t, r.Fits) :
    ({ d with edges := t, files := d.files.put edgesWal t.file } : DataDir).Sound := by
  obtain ⟨log, hsync, hrest⟩ := h.edges
  obtain ⟨w, hw⟩ := hsync.wal
  obtain ⟨cmds, hlogs⟩ := EdgeStore.performCall_logs hw hcall
  exact { nodes := h.nodes
          edges := h.edges.logs hlogs hfit
          props := h.props
          nodesFile := (FiniteMap.get_put_ne _ _ (by decide)).trans h.nodesFile
          edgesFile := FiniteMap.get_put_self _ _ _
          propsFile := (FiniteMap.get_put_ne _ _ (by decide)).trans h.propsFile
          disk := h.disk.put_wal edgesWal_mem _ }

theorem Sound.prop {d : DataDir} (h : d.Sound) {op : PropOp} (hop : op.LogsShort d.props)
    (hfit : ∀ r ∈ (d.props.perform op).history, r.Fits) :
    ({ d with props := d.props.perform op,
              files := d.files.put propsWal (d.props.perform op).file } : DataDir).Sound :=
  { nodes := h.nodes
    edges := h.edges
    props := h.props.perform hop hfit
    nodesFile := (FiniteMap.get_put_ne _ _ (by decide)).trans h.nodesFile
    edgesFile := (FiniteMap.get_put_ne _ _ (by decide)).trans h.edgesFile
    propsFile := FiniteMap.get_put_self _ _ _
    disk := h.disk.put_wal propsWal_mem _ }

theorem Sound.takeSnapshot {d : DataDir} (h : d.Sound) {input : SnapshotInput}
    (hlists : input.Lists d.contents) :
    ({ d with manager := (d.manager.takeSnapshot d.files input).2.1,
              files := (d.manager.takeSnapshot d.files input).2.2,
              atSnapshot := d.contents } : DataDir).Sound := by
  refine { nodes := h.nodes.snapshot
           edges := h.edges.snapshot
           props := h.props.snapshot
           nodesFile := (get_takeSnapshot _ _ _ nodesWal_mem).trans h.nodesFile
           edgesFile := (get_takeSnapshot _ _ _ edgesWal_mem).trans h.edgesFile
           propsFile := (get_takeSnapshot _ _ _ propsWal_mem).trans h.propsFile
           disk := ⟨?_, fun _ => ⟨input.data d.manager.nextId, ?_, contents_data hlists _⟩⟩ }
  · dsimp only
    rw [takeSnapshot_files]
    exact Manifest.read_of_get (FiniteMap.get_put_self _ _ _)
  · dsimp only
    rw [takeSnapshot_files]
    refine (FiniteMap.get_put_ne _ _ (snapshotName_ne_manifest _)).trans ?_
    exact FiniteMap.get_put_self _ _ _

theorem Sound.mergeWal {d : DataDir} (h : d.Sound) (walFile : String) :
    ({ d with manager := (d.manager.mergeWal d.files walFile).1,
              files := (d.manager.mergeWal d.files walFile).2 } : DataDir).Sound := by
  have hget : ∀ f ∈ SnapshotManager.walFiles,
      (d.manager.mergeWal d.files walFile).2.get f = d.files.get f := by
    intro f hf
    rw [mergeWal_files]
    exact FiniteMap.get_put_ne _ _ (wal_ne_manifest hf)
  refine { nodes := h.nodes
           edges := h.edges
           props := h.props
           nodesFile := (hget _ nodesWal_mem).trans h.nodesFile
           edgesFile := (hget _ edgesWal_mem).trans h.edgesFile
           propsFile := (hget _ propsWal_mem).trans h.propsFile
           disk := ?_ }
  dsimp only
  rw [mergeWal_files]
  exact h.disk.put_manifest rfl

omit [Bincode SnapshotData] in
theorem open_eq_some {files : Files} {snap : Maps} {d : DataDir}
    (h : DataDir.open files snap = some d) :
    ∃ nodes edges props manager,
      NodeStore.open ((files.get nodesWal).getD []) = .ok nodes ∧
      EdgeStore.open ((files.get edgesWal).getD []) = .ok edges ∧
      PropStore.open ((files.get propsWal).getD []) = .ok props ∧
      SnapshotManager.new files = .ok manager ∧
      d = { nodes, edges, props, manager, atSnapshot := snap,
            files := ((files.put nodesWal nodes.file).put edgesWal edges.file).put propsWal
              props.file } := by
  unfold DataDir.open at h
  split at h
  · rename_i nodes edges props manager hn he hp hm
    exact ⟨nodes, edges, props, manager, hn, he, hp, hm, (Option.some.inj h).symm⟩
  · exact absurd h (by simp)

/-- The stores and the manager a process starts with. -/
theorem sound_of_open {files : Files} {snap : Maps} {d : DataDir}
    (h : DataDir.open files snap = some d) (hnodes : d.nodes.Recorded snap.nodes)
    (hedges : RecordStore.Recorded d.edges snap.edges) (hprops : d.props.Recorded snap.props)
    (hdisk : HoldsSnapshot files d.manager.manifest snap) : d.Sound := by
  obtain ⟨nodes, edges, props, manager, -, -, -, -, rfl⟩ := open_eq_some h
  exact { nodes := hnodes
          edges := hedges
          props := hprops
          nodesFile := by
            rw [FiniteMap.get_put_ne _ _ (by decide), FiniteMap.get_put_ne _ _ (by decide),
              FiniteMap.get_put_self]
          edgesFile := by
            rw [FiniteMap.get_put_ne _ _ (by decide), FiniteMap.get_put_self]
          propsFile := FiniteMap.get_put_self _ _ _
          disk := ((hdisk.put_wal nodesWal_mem _).put_wal edgesWal_mem _).put_wal propsWal_mem _ }

theorem Sound.reopen {d t : DataDir} (h : d.Sound)
    (hopen : DataDir.open d.files d.atSnapshot = some t) : t.Sound := by
  obtain ⟨nodes, edges, props, manager, hn, he, hp, hm, rfl⟩ := open_eq_some hopen
  rw [h.nodesFile, Option.getD_some] at hn
  rw [h.edgesFile, Option.getD_some] at he
  rw [h.propsFile, Option.getD_some] at hp
  have hmanifest : manager.manifest = d.manager.manifest :=
    Except.ok.inj ((SnapshotManager.manifest_of_new hm).symm.trans h.disk.read)
  exact sound_of_open hopen
    (h.nodes.reopen fun _ hlog => NodeStore.open_synced hlog hn)
    (h.edges.reopen fun _ hlog => EdgeStore.open_synced hlog he)
    (h.props.reopen hp) (hmanifest ▸ h.disk)

/-- **One step of a run.** -/
theorem Sound.step {d t : DataDir} {a : DataDirStep} (h : d.Sound) (ha : d.Proper a)
    (hstep : d.step a = some t) : t.Sound := by
  obtain ⟨hint, hlog⟩ := ha
  cases a with
  | node op => exact Option.some.inj hstep ▸ h.node hlog
  | edge c =>
    obtain ⟨edges, hcall, rfl⟩ := Option.map_eq_some_iff.mp hstep
    exact h.edge hcall (hlog edges hcall)
  | prop op => exact Option.some.inj hstep ▸ h.prop hlog.1 hlog.2
  | takeSnapshot input => exact Option.some.inj hstep ▸ h.takeSnapshot hint
  | mergeWal walFile => exact Option.some.inj hstep ▸ h.mergeWal walFile
  | reopen => exact h.reopen hstep

/-- The logs of a directory without a snapshot. -/
structure LogsIn (files : Files) (logs : DirLogs) : Prop where
  nodes : LogHolds ((files.get nodesWal).getD []) logs.nodes
  edges : LogHolds ((files.get edgesWal).getD []) logs.edges
  props : LogHolds ((files.get propsWal).getD []) logs.props

/-- The first process. -/
theorem sound_start {files : Files} {logs : DirLogs} {d : DataDir} (hlogs : LogsIn files logs)
    (hfresh : files.get Manifest.fileName = none)
    (hopen : DataDir.open files Maps.empty = some d) : d.Sound := by
  obtain ⟨nodes, edges, props, manager, hn, he, hp, hm, rfl⟩ := open_eq_some hopen
  obtain ⟨hnsync, hnnil⟩ := NodeStore.open_synced hlogs.nodes hn
  obtain ⟨hesync, henil⟩ := EdgeStore.open_synced hlogs.edges he
  have hread := Manifest.read_of_get_none hfresh
  have hmanifest : manager.manifest = .empty :=
    Except.ok.inj ((SnapshotManager.manifest_of_new hm).symm.trans hread)
  exact sound_of_open hopen
    (hnsync.recorded hnnil hlogs.nodes.fits (isCheckpoint_start _ _ _))
    (hesync.recorded henil hlogs.edges.fits (isCheckpoint_start _ _ _))
    (PropStore.recorded_of_open hlogs.props (isCheckpoint_start _ _ _) hp)
    ⟨SnapshotManager.manifest_of_new hm, fun hid =>
      absurd (congrArg Manifest.latestSnapshotId hmanifest) hid⟩

/-- **A run.** -/
theorem sound_run {files : Files} {logs : DirLogs} {d₀ d : DataDir} {steps : List DataDirStep}
    (hlogs : LogsIn files logs) (hfresh : files.get Manifest.fileName = none)
    (hopen : DataDir.open files Maps.empty = some d₀)
    (hsteps : Guarded DataDir.step Proper d₀ steps) (hrun : run DataDir.step d₀ steps = some d) :
    d.Sound :=
  guarded_invariant (fun _ _ _ h ha hstep => h.step ha hstep) (sound_start hlogs hfresh hopen)
    hsteps hrun

/-! ### What is restored -/

/-- `recover` lists the file. -/
def listed (d : DataDir) (f : String) : Bool :=
  !d.manager.manifest.mergedWalFiles.contains f && (d.files.get f).isSome

/-- The stores that are brought up to date are those whose logs were never merged. -/
def restored (d : DataDir) : Maps :=
  let merged := d.manager.manifest.mergedWalFiles
  { nodes := if nodesWal ∈ merged then d.atSnapshot.nodes else d.nodes.records
    edges := if edgesWal ∈ merged then d.atSnapshot.edges else d.edges.records
    props := if propsWal ∈ merged then d.atSnapshot.props else d.props.columns }

omit [Bincode Node] [Bincode Edge] [Bincode (Option Value)] [Bincode SnapshotData]
  [SerdeJson Manifest] in
theorem listed_iff {d : DataDir} {f : String} {data : Bytes} (h : d.files.get f = some data) :
    d.listed f = true ↔ f ∉ d.manager.manifest.mergedWalFiles := by
  simp [listed, h]

omit [Bincode SnapshotData] [SerdeJson Manifest] in
/-- The turn of a file: its log is replayed if it is listed. -/
theorem turn_of {d : DataDir} {f : String} {data : Bytes} {m m' : Maps}
    (hfile : d.files.get f = some data)
    (hmerged : f ∈ d.manager.manifest.mergedWalFiles → m = m')
    (hlisted : f ∉ d.manager.manifest.mergedWalFiles → m.replayFile d.files f = .ok m') :
    (if d.listed f then m.replayFile d.files f else .ok m) = .ok m' := by
  by_cases hmem : f ∈ d.manager.manifest.mergedWalFiles
  · rw [if_neg fun hl => (listed_iff hfile).mp hl hmem, hmerged hmem]
  · rw [if_pos ((listed_iff hfile).mpr hmem), hlisted hmem]

theorem Sound.turn_nodes {d : DataDir} (h : d.Sound) {m : Maps}
    (hm : m.nodes = d.atSnapshot.nodes) :
    (if d.listed nodesWal then m.replayFile d.files nodesWal else .ok m)
      = .ok { m with nodes := d.restored.nodes } := by
  refine turn_of h.nodesFile (fun hmem => ?_) fun hmem => ?_
  · rw [restored, if_pos hmem, ← hm]
  · obtain ⟨st, hst, hrec⟩ := h.nodes.replay
    rw [restored, if_neg hmem, Maps.replayFile, if_pos rfl, h.nodesFile, Option.getD_some, hm,
      hst, ← hrec]
    rfl

theorem Sound.turn_edges {d : DataDir} (h : d.Sound) {m : Maps}
    (hm : m.edges = d.atSnapshot.edges) :
    (if d.listed edgesWal then m.replayFile d.files edgesWal else .ok m)
      = .ok { m with edges := d.restored.edges } := by
  refine turn_of h.edgesFile (fun hmem => ?_) fun hmem => ?_
  · rw [restored, if_pos hmem, ← hm]
  · obtain ⟨st, hst, hrec⟩ := h.edges.replay
    rw [restored, if_neg hmem, Maps.replayFile, if_neg (by decide), if_pos rfl, h.edgesFile,
      Option.getD_some, hm, hst, ← hrec]
    rfl

theorem Sound.turn_props {d : DataDir} (h : d.Sound) {m : Maps}
    (hm : m.props = d.atSnapshot.props) :
    (if d.listed propsWal then m.replayFile d.files propsWal else .ok m)
      = .ok { m with props := d.restored.props } := by
  refine turn_of h.propsFile (fun hmem => ?_) fun hmem => ?_
  · rw [restored, if_pos hmem, ← hm]
  · obtain ⟨st, hst, hcol⟩ := h.props.replay
    rw [restored, if_neg hmem, Maps.replayFile, if_neg (by decide), if_neg (by decide),
      if_pos rfl, h.propsFile, Option.getD_some, hm, hst, ← hcol]
    rfl

omit [Bincode SnapshotData] [SerdeJson Manifest] in
/-- One file after the other. -/
theorem foldlM_filter_cons {files : Files} {keep : String → Bool} {f : String} {fs : List String}
    {m m' : Maps} (h : (if keep f then m.replayFile files f else .ok m) = .ok m') :
    ((f :: fs).filter keep).foldlM (Maps.replayFile files) m
      = (fs.filter keep).foldlM (Maps.replayFile files) m' := by
  rw [List.filter_cons]
  split
  · rename_i hkeep
    rw [if_pos hkeep] at h
    rw [List.foldlM_cons, h]
    rfl
  · rename_i hkeep
    rw [if_neg hkeep] at h
    rw [Except.ok.inj h]

theorem Sound.restore {d : DataDir} (h : d.Sound) {data : SnapshotData}
    (hdata : data.contents = d.atSnapshot) :
    Maps.restore d.files (some data) (SnapshotManager.walFiles.filter d.listed)
      = .ok d.restored := by
  rw [Maps.restore, Option.map_some, Option.getD_some, hdata]
  show ([nodesWal, edgesWal, propsWal].filter d.listed).foldlM _ _ = _
  have hnodes := h.turn_nodes (m := d.atSnapshot) rfl
  have hedges := h.turn_edges (m := { d.atSnapshot with nodes := d.restored.nodes }) rfl
  have hprops := h.turn_props
    (m := { d.atSnapshot with nodes := d.restored.nodes, edges := d.restored.edges }) rfl
  rw [foldlM_filter_cons hnodes, foldlM_filter_cons hedges, foldlM_filter_cons hprops]
  rfl

omit [Bincode Node] [Bincode Edge] [Bincode (Option Value)] [Bincode SnapshotData]
  [SerdeJson Manifest] in
/-- They are all up to date if the others are as they were at the snapshot. -/
theorem restored_eq_iff (d : DataDir) :
    d.restored = d.contents ↔
      ∀ f ∈ d.manager.manifest.mergedWalFiles, d.contents.SameAt d.atSnapshot f := by
  have hif : ∀ {α : Type} (p : Prop) [Decidable p] (old now : α),
      (if p then old else now) = now ↔ (p → now = old) := by
    intro α p _ old now
    by_cases hp : p
    · rw [if_pos hp]
      exact ⟨fun h _ => h.symm, fun h => (h hp).symm⟩
    · rw [if_neg hp]
      exact ⟨fun _ h => absurd h hp, fun _ => rfl⟩
  rw [Maps.ext_iff]
  simp only [restored, contents, hif]
  constructor
  · rintro ⟨hnodes, hedges, hprops⟩ f hf
    exact ⟨fun heq => hnodes (heq ▸ hf), fun heq => hedges (heq ▸ hf), fun heq => hprops (heq ▸ hf)⟩
  · intro hall
    exact ⟨fun hf => (hall _ hf).1 rfl, fun hf => (hall _ hf).2.1 rfl,
      fun hf => (hall _ hf).2.2 rfl⟩

/-- A sound directory is recovered exactly when nothing is lost. -/
theorem Sound.recovers_iff {d : DataDir} (h : d.Sound) : d.Recovers ↔ d.NothingLost := by
  have hrestore : ∀ {snapshot : Option SnapshotData} {walFiles : List String},
      d.manager.recover d.files = .ok (snapshot, walFiles) →
      (d.Recovers ↔ Maps.restore d.files snapshot walFiles = .ok d.contents) := by
    intro snapshot walFiles hrecover
    constructor
    · rintro ⟨m, snapshot', walFiles', hnew, hrecover', hall⟩
      have hsame : m.recover d.files = d.manager.recover d.files := by
        have hmanifest : m.manifest = d.manager.manifest :=
          Except.ok.inj ((SnapshotManager.manifest_of_new hnew).symm.trans h.disk.read)
        rw [SnapshotManager.recover, SnapshotManager.recover, hmanifest]
      obtain ⟨rfl, rfl⟩ := Prod.mk.inj (Except.ok.inj (hrecover'.symm.trans (hsame.trans hrecover)))
      exact hall
    · intro hall
      refine ⟨{ manifest := d.manager.manifest, walBytesSinceSnapshot := 0,
                snapshotIntervalBytes := 536870912 }, snapshot, walFiles, ?_, hrecover, hall⟩
      rw [SnapshotManager.new, h.disk.read]
  by_cases hid : d.manager.manifest.latestSnapshotId = 0
  · -- no snapshot, and no log
    rw [hrestore (SnapshotManager.recover_of_loadLatest (SnapshotReader.loadLatest_zero hid))]
    show Except.ok Maps.empty = .ok d.contents ↔ _
    rw [Except.ok.injEq]
    exact ⟨fun heq => ⟨fun _ => heq.symm, fun hne => absurd hid hne⟩, fun hl => (hl.1 hid).symm⟩
  · obtain ⟨data, hfile, hdata⟩ := h.disk.snapshot hid
    have hload := SnapshotReader.loadLatest_of_get hid hfile
    rw [hrestore (SnapshotManager.recover_of_loadLatest hload)]
    show Maps.restore d.files (some data) (SnapshotManager.walFiles.filter d.listed) = _ ↔ _
    rw [h.restore hdata, Except.ok.injEq, restored_eq_iff]
    exact ⟨fun hall => ⟨fun hzero => absurd hzero hid, fun _ => hall⟩, fun hl => hl.2 hid⟩

end Persistent
end DataDir
/-- **A snapshot and the logs `recover` lists bring the stores back** at the end of a run exactly
when no log was left out that has something new. -/
theorem snapshot_and_logs_suffice [Bincode Node] [Bincode Edge] [Bincode (Option Value)]
    [Bincode SnapshotData] [SerdeJson Manifest] {files : Files} {logs : DirLogs}
    (hlogs : DataDir.LogsIn files logs) (hfresh : files.get Manifest.fileName = none)
    {d₀ d : DataDir} (hopen : DataDir.open files Maps.empty = some d₀)
    {steps : List DataDirStep} (hsteps : Guarded DataDir.step DataDir.Proper d₀ steps)
    (hrun : run DataDir.step d₀ steps = some d) : d.Recovers ↔ d.NothingLost :=
  (DataDir.sound_run hlogs hfresh hopen hsteps hrun).recovers_iff

/-! ## Two runs -/

namespace DataDir

/-- What an empty directory is opened to. -/
def fresh : DataDir :=
  { nodes := NodeStore.fresh
    edges := EdgeStore.fresh
    props := PropStore.fresh
    manager :=
      { manifest := .empty, walBytesSinceSnapshot := 0, snapshotIntervalBytes := 536870912 }
    files := (((∅ : Files).put nodesWal magic).put edgesWal magic).put propsWal magic
    atSnapshot := Maps.empty }

theorem open_empty : DataDir.open ∅ Maps.empty = some fresh := by
  have hnew : SnapshotManager.new ∅ = .ok fresh.manager := by
    rw [SnapshotManager.new, Manifest.read_of_get_none (FiniteMap.get_empty _)]
    rfl
  rw [DataDir.open]
  simp only [FiniteMap.get_empty, Option.getD_none, NodeStore.open_nil, EdgeStore.open_nil,
    PropStore.open_nil, hnew]
  rfl

theorem logsIn_empty : LogsIn ∅ ⟨[], [], []⟩ := by
  constructor <;> rw [FiniteMap.get_empty] <;> exact LogHolds.empty

/-- A node is inserted and a snapshot is taken of it. -/
def firstNode : Node := Node.new 0 [1] 0 1

def firstSteps : List DataDirStep :=
  [.node (.insertNode [1] 0 1),
    .takeSnapshot { nodes := [firstNode], edges := [], propColumns := [], nextNodeId := 1,
                    nextEdgeId := 0 }]

theorem lists_firstNode {m : Maps} (hm : m = ⟨(∅ : FiniteMap NodeId Node).put 0 firstNode, ∅, ∅⟩) :
    SnapshotInput.Lists { nodes := [firstNode], edges := [], propColumns := [], nextNodeId := 1,
                          nextEdgeId := 0 } m := by
  subst hm
  refine ⟨fun id n => ?_, fun id e => ?_, fun label prop col => ?_⟩
  · rw [FiniteMap.get_put, List.mem_singleton]
    by_cases hid : id = 0
    · rw [if_pos hid, Option.some.injEq, hid]
      exact ⟨fun h => ⟨h.symm, h ▸ rfl⟩, fun h => h.1.symm⟩
    · rw [if_neg hid]
      refine ⟨fun h => absurd h (by simp), fun h => absurd ?_ hid⟩
      rw [← h.2, h.1]
      rfl
  · exact ⟨fun h => absurd h (by simp), fun h => absurd h.1 List.not_mem_nil⟩
  · exact ⟨fun h => absurd h (by simp), fun h => absurd h List.not_mem_nil⟩

theorem guarded_firstSteps {steps : List DataDirStep}
    (h : ∀ d, run DataDir.step fresh firstSteps = some d → Guarded DataDir.step Proper d steps) :
    Guarded DataDir.step Proper fresh (firstSteps ++ steps) := by
  refine Guarded.cons rfl ⟨trivial, ?_⟩ (Guarded.cons rfl ⟨lists_firstNode rfl, trivial⟩ ?_)
  · show ∀ r ∈ _, _
    decide +kernel
  · exact h _ rfl

/-- The edges' log is merged; a node and a property come later. -/
def growSteps : List DataDirStep :=
  firstSteps ++ [.mergeWal edgesWal, .node (.insertNode [2] 0 1),
    .prop (.insertProp 0 "age" 0 (some (.int 30)))]

/-- The nodes' log is merged; a node comes later. -/
def mergeSteps : List DataDirStep :=
  firstSteps ++ [.mergeWal nodesWal, .node (.insertNode [2] 0 1)]

theorem guarded_mergeSteps : Guarded DataDir.step Proper fresh mergeSteps := by
  refine guarded_firstSteps fun d hd => ?_
  obtain rfl := Option.some.inj hd
  refine Guarded.cons rfl ⟨⟨nodesWal_mem, by decide, fun _ => rfl, fun _ => rfl, fun _ => rfl⟩,
    trivial⟩ (Guarded.cons rfl ⟨trivial, ?_⟩ trivial)
  show ∀ r ∈ _, _
  decide +kernel

end DataDir

theorem snapshot_and_logs_suffice_five :
    ∃ d, run DataDir.step DataDir.fresh DataDir.growSteps = some d ∧ d.Recovers := by
  have hsteps : Guarded DataDir.step DataDir.Proper DataDir.fresh DataDir.growSteps := by
    refine DataDir.guarded_firstSteps fun d hd => ?_
    obtain rfl := Option.some.inj hd
    refine Guarded.cons rfl ⟨⟨edgesWal_mem, by decide, fun _ => rfl, fun _ => rfl, fun _ => rfl⟩,
      trivial⟩ (Guarded.cons rfl ⟨trivial, ?_⟩ (Guarded.cons rfl ⟨trivial, ?_, ?_⟩ trivial))
    · show ∀ r ∈ _, _
      decide +kernel
    · show (utf8Bytes "age").length < 256
      decide
    · show ∀ r ∈ _, _
      decide +kernel
  refine ⟨_, rfl, (snapshot_and_logs_suffice DataDir.logsIn_empty (FiniteMap.get_empty _)
    DataDir.open_empty hsteps rfl).mpr ⟨fun hid => absurd hid (by decide), fun _ f hf => ?_⟩⟩
  obtain rfl : f = edgesWal := List.mem_singleton.mp hf
  exact ⟨fun h => absurd h (by decide), fun _ => rfl, fun h => absurd h (by decide)⟩

/-- The second node is in a log that `recover` leaves out, and the first one, where no snapshot
was taken, is in a log it leaves out as well. -/
theorem merged_log_is_forgotten :
    (Guarded DataDir.step DataDir.Proper DataDir.fresh DataDir.mergeSteps ∧
      ∃ d, run DataDir.step DataDir.fresh DataDir.mergeSteps = some d ∧ ¬ d.Recovers) ∧
    (Guarded DataDir.step DataDir.Proper DataDir.fresh [.node (.insertNode [1] 0 1)] ∧
      ∃ d, run DataDir.step DataDir.fresh [.node (.insertNode [1] 0 1)] = some d ∧
        ¬ d.Recovers) := by
  have hone : Guarded DataDir.step DataDir.Proper DataDir.fresh [.node (.insertNode [1] 0 1)] := by
    refine Guarded.cons rfl ⟨trivial, ?_⟩ trivial
    show ∀ r ∈ _, _
    decide +kernel
  refine ⟨⟨DataDir.guarded_mergeSteps, _, rfl, fun h => ?_⟩, hone, _, rfl, fun h => ?_⟩
  · have hlost := (DataDir.sound_run DataDir.logsIn_empty (FiniteMap.get_empty _)
      DataDir.open_empty DataDir.guarded_mergeSteps rfl).recovers_iff.mp h
    have hsame := ((hlost.2 (by decide)) nodesWal (List.mem_singleton.mpr rfl)).1 rfl
    have hget := congrArg (fun m => (FiniteMap.get m (1 : UInt64)).isSome) hsame
    revert hget
    decide +kernel
  · have hlost := (DataDir.sound_run DataDir.logsIn_empty (FiniteMap.get_empty _)
      DataDir.open_empty hone rfl).recovers_iff.mp h
    have hempty := congrArg Maps.nodes (hlost.1 rfl)
    have hget := congrArg (fun m => (FiniteMap.get m (0 : UInt64)).isSome) hempty
    revert hget
    decide +kernel

end LightGraph
