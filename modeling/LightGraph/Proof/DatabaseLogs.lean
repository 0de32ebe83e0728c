import LightGraph.Proof.Recovery
import LightGraph.Transaction.Maps
import LightGraph.Lib.Machine

/-!
# A database and its three logs

What `Proof/Recovery.lean` says of one record store, said of a database: whatever transactions
do, the three flushed logs stay frames of records, and reopening them gives the maps back. The
property store has a condition of its own — a name must be shorter than 256 bytes, or its
record names another cell — so its columns are a statement apart (`PropStore.Mirrored`).
-/

set_option autoImplicit false

namespace LightGraph

open Lib

/-! ## The property store -/

/-- The bytes of a value are never none at all: a type with two values cannot afford it. -/
theorem Bincode.bytes_ne_nil {α : Type} [Bincode α] {a b : α} (h : a ≠ b) :
    Bincode.bytes a ≠ [] := by
  intro hnil
  have ha := Bincode.deserialize_bytes a
  rw [hnil] at ha
  by_cases hb : Bincode.bytes b = []
  · have hb' := Bincode.deserialize_bytes b
    rw [hb, ha, Option.some.injEq] at hb'
    exact h hb'
  · have hcut := Bincode.truncated b (Bincode.bytes b) (Bincode.serialize_eq b) []
      List.nil_prefix (Ne.symm hb)
    rw [ha] at hcut
    exact absurd hcut (by simp)

namespace PropStore

/-- The records sent to the WAL since the store was opened. -/
def history (s : PropStore) : List LogRecord := records s.sent

variable [Bincode (Option Value)]

/-- The record of one cell. -/
def cellRecord (label : LabelId) (prop : String) (row : UInt32) (value : Option Value) :
    LogRecord :=
  ⟨1, label.toUInt64, cellHeader label prop row ++ Bincode.bytes value⟩

omit [Bincode (Option Value)] in
/-- The header of a payload, piece by piece. -/
theorem cellHeader_pieces (label : LabelId) {prop : String} (row : UInt32) (data : Bytes)
    (hname : (utf8Bytes prop).length < 256) :
    let payload := cellHeader label prop row ++ data
    let headerEnd := 5 + (utf8Bytes prop).length
    payload.take 4 = leBytes 4 label.toNat ∧
    ((payload.drop 4).headD 0).toNat = (utf8Bytes prop).length ∧
    (payload.take headerEnd).drop 5 = utf8Bytes prop ∧
    (payload.drop headerEnd).take 4 = leBytes 4 row.toNat ∧
    payload.drop (headerEnd + 4) = data ∧
    payload.length = headerEnd + 4 + data.length := by
  have hfour : ∀ n, (leBytes 4 n).length = 4 := length_leBytes 4
  have hfive : (leBytes 4 label.toNat ++ [UInt8.ofNat (utf8Bytes prop).length]).length = 5 := by
    rw [List.length_append, hfour]
    rfl
  have hsplit : cellHeader label prop row ++ data
      = leBytes 4 label.toNat ++ (UInt8.ofNat (utf8Bytes prop).length ::
        (utf8Bytes prop ++ (leBytes 4 row.toNat ++ data))) := by
    simp [cellHeader]
  have hsplit' : cellHeader label prop row ++ data
      = (leBytes 4 label.toNat ++ [UInt8.ofNat (utf8Bytes prop).length] ++ utf8Bytes prop)
        ++ (leBytes 4 row.toNat ++ data) := by
    simp [cellHeader]
  have hlen : (leBytes 4 label.toNat ++ [UInt8.ofNat (utf8Bytes prop).length]
      ++ utf8Bytes prop).length = 5 + (utf8Bytes prop).length := by
    rw [List.length_append, hfive]
  refine ⟨?_, ?_, ?_, ?_, ?_, ?_⟩
  · rw [hsplit]
    exact List.take_left' (hfour _)
  · rw [hsplit, List.drop_left' (hfour _), List.headD_cons, UInt8.toNat_ofNat']
    exact Nat.mod_eq_of_lt hname
  · rw [hsplit', List.take_left' hlen]
    exact List.drop_left' hfive
  · rw [hsplit', List.drop_left' hlen]
    exact List.take_left' (hfour _)
  · rw [hsplit', ← List.append_assoc]
    exact List.drop_left' (by rw [List.length_append, hlen, hfour])
  · rw [hsplit', List.length_append, hlen, List.length_append, hfour]
    omega

/-- Replaying the record of a cell, when the name's length fits its byte. -/
theorem onRecord_cellRecord_eq (st : PropReplay) {label : LabelId} {prop : String} {row : UInt32}
    (value : Option Value) (hname : (utf8Bytes prop).length < 256) :
    st.onRecord (cellRecord label prop row value) =
      { columns := st.columns.putCell label prop row value
        schemas := st.schemas.put label (max ((st.schemas.get label).getD 0) (row + 1)) } := by
  -- nine bytes of header and a value that is never empty make the ten the replay asks for
  have hdata : 0 < (Bincode.bytes value).length := by
    apply List.length_pos_iff.mpr
    cases value with
    | none => exact Bincode.bytes_ne_nil (b := some .null) (by simp)
    | some v => exact Bincode.bytes_ne_nil (b := none) (by simp)
  obtain ⟨hlabel, hlen, hprop, hrow, hval, htotal⟩ :=
    cellHeader_pieces label row (Bincode.bytes value) hname
  have hlong : (cellHeader label prop row ++ Bincode.bytes value).length ≥ 10 := by
    rw [htotal]
    omega
  have hword : ∀ w : UInt32, UInt32.ofNat (leNat (leBytes 4 w.toNat)) = w := by
    intro w
    rw [leNat_leBytes_of_lt (w := 4) w.toNat_lt, UInt32.ofNat_toNat]
  unfold PropReplay.onRecord cellRecord
  dsimp only
  rw [if_pos ⟨rfl, hlong⟩]
  simp only [hlabel, hlen, hprop, hrow, hval, hword, fromUtf8Lossy_utf8Bytes,
    Bincode.deserialize_bytes]
  rw [if_neg (by rw [htotal]; omega)]

/-- It writes the cell. -/
theorem onRecord_cellRecord (st : PropReplay) {label : LabelId} {prop : String} {row : UInt32}
    (value : Option Value) (hname : (utf8Bytes prop).length < 256) :
    (st.onRecord (cellRecord label prop row value)).columns
      = st.columns.putCell label prop row value := by
  rw [onRecord_cellRecord_eq st value hname]

/-- The flushed file holds what it held before and the records sent since. -/
structure Logged (log : List LogRecord) (s : PropStore) : Prop where
  wal : ∃ w, s.wal = some w
  file : s.file = magic ++ encodeRecords (log ++ s.history)

/-- The columns are what the log replays to. -/
def Mirrored (log : List LogRecord) (s : PropStore) : Prop :=
  s.columns = ((log ++ s.history).foldl PropReplay.onRecord PropReplay.empty).columns

omit [Bincode (Option Value)] in
/-- Only the WAL counts. -/
theorem Logged.of_wal {log : List LogRecord} {s t : PropStore} (h : s.Logged log)
    (hwal : t.wal = s.wal) : t.Logged log := by
  have hhist : t.history = s.history := by rw [history, sent, hwal, history, sent]
  have hfile : t.file = s.file := by rw [PropStore.file, hwal, PropStore.file]
  exact ⟨by rw [hwal]; exact h.wal, by rw [hfile, hhist]; exact h.file⟩

theorem walSendCell_wal {s : PropStore} {w : WalLog} (hw : s.wal = some w) (label : LabelId)
    (prop : String) (row : UInt32) (value : Option Value) :
    (s.walSendCell label prop row value).wal = some (w.send
      (.insert label.toUInt64 (cellHeader label prop row ++ Bincode.bytes value))) := by
  unfold walSendCell
  rw [hw, Bincode.serialize_eq]

theorem walSendCell_columns (s : PropStore) (label : LabelId) (prop : String) (row : UInt32)
    (value : Option Value) : (s.walSendCell label prop row value).columns = s.columns := by
  unfold walSendCell
  split <;> [rfl; (split <;> rfl)]

theorem walSendCell_history {s : PropStore} {w : WalLog} (hw : s.wal = some w) (label : LabelId)
    (prop : String) (row : UInt32) (value : Option Value) :
    (s.walSendCell label prop row value).history
      = s.history ++ [cellRecord label prop row value] := by
  rw [history, sent, walSendCell_wal hw label prop row value, history, sent, hw]
  simp [WalLog.send, records, WalCmd.record?, cellRecord]

theorem Logged.walSendCell {log : List LogRecord} {s : PropStore} (h : s.Logged log)
    (label : LabelId) (prop : String) (row : UInt32) (value : Option Value) :
    (s.walSendCell label prop row value).Logged log := by
  obtain ⟨w, hw⟩ := h.wal
  have hwal := walSendCell_wal hw label prop row value
  refine ⟨⟨_, hwal⟩, ?_⟩
  have hfile : (s.walSendCell label prop row value).file
      = s.file ++ encodeRecords [cellRecord label prop row value] := by
    rw [PropStore.file, hwal, PropStore.file, hw]
    simp only [Option.map_some, Option.getD_some, WalLog.file, WalLog.send, encodeCmds_append,
      List.append_assoc]
    rw [encodeCmds_eq [_]]
    rfl
  rw [hfile, h.file, walSendCell_history hw, List.append_assoc, ← encodeRecords_append,
    List.append_assoc]

theorem insertProp_history {s : PropStore} {w : WalLog} (hw : s.wal = some w) (label : LabelId)
    (prop : String) (row : UInt32) (value : Option Value) :
    (s.insertProp label prop row value).history
      = s.history ++ [cellRecord label prop row value] :=
  walSendCell_history (s := { s with columns := s.columns.putCell label prop row value }) hw
    label prop row value

theorem Logged.insertProp {log : List LogRecord} {s : PropStore} (h : s.Logged log)
    (label : LabelId) (prop : String) (row : UInt32) (value : Option Value) :
    (s.insertProp label prop row value).Logged log :=
  Logged.walSendCell (s := { s with columns := s.columns.putCell label prop row value })
    (h.of_wal rfl) label prop row value

theorem Mirrored.insertProp {log : List LogRecord} {s : PropStore} (h : s.Mirrored log)
    (hlog : s.Logged log) {label : LabelId} {prop : String} {row : UInt32}
    (value : Option Value) (hname : (utf8Bytes prop).length < 256) :
    (s.insertProp label prop row value).Mirrored log := by
  obtain ⟨w, hw⟩ := hlog.wal
  rw [Mirrored, insertProp_history hw, insertProp_columns,
    ← List.append_assoc, List.foldl_append, List.foldl_cons, List.foldl_nil,
    onRecord_cellRecord _ value hname, ← show s.columns = _ from h]

/-- What the replay closure has built is what the store starts from. -/
theorem open_of_holds {file : Bytes} {log : List LogRecord} (h : LogHolds file log) :
    PropStore.open file = .ok
      { columns := (log.foldl PropReplay.onRecord PropReplay.empty).columns
        schemas := (log.foldl PropReplay.onRecord PropReplay.empty).schemas
        wal := some { opened := spawnFile file, sent := [] } } := by
  rw [PropStore.open, h.replay]

theorem open_eq {file : Bytes} {log : List LogRecord} (h : LogHolds file log) :
    ∃ s, PropStore.open file = .ok s ∧ s.Logged log ∧ s.Mirrored log ∧ s.history = [] := by
  refine ⟨_, open_of_holds h, ⟨⟨_, rfl⟩, ?_⟩, ?_, rfl⟩
  · show (spawnFile file ++ encodeCmds []) = magic ++ encodeRecords (log ++ [])
    rw [encodeCmds_nil, List.append_nil, List.append_nil, h.content]
  · show _ = ((log ++ []).foldl PropReplay.onRecord PropReplay.empty).columns
    rw [List.append_nil]

omit [Bincode (Option Value)] in
/-- The flushed file of such a store is one a run has left. -/
theorem Logged.logHolds {s : PropStore} {log : List LogRecord} (h : s.Logged log)
    (hfit : ∀ r ∈ log ++ s.history, r.Fits) : LogHolds s.file (log ++ s.history) := by
  rw [h.file]
  exact LogHolds.encode hfit

/-- Reopening gives the columns back. -/
theorem reopen_columns {log : List LogRecord} {s : PropStore} (h : s.Logged log)
    (hfit : ∀ r ∈ log ++ s.history, r.Fits) :
    ∃ t, PropStore.open s.file = .ok t ∧
      t.columns = ((log ++ s.history).foldl PropReplay.onRecord PropReplay.empty).columns := by
  obtain ⟨t, ht, -, hmir, hnil⟩ := open_eq (h.logHolds hfit)
  refine ⟨t, ht, ?_⟩
  rw [Mirrored, hnil, List.append_nil] at hmir
  exact hmir

end PropStore

/-! ## The database -/

/-- The records found in a directory's three logs. -/
structure DirLogs where
  nodes : List LogRecord
  edges : List LogRecord
  props : List LogRecord

/-- A directory as runs leave it after a flush. -/
structure Directory.Holds (dir : Directory) (logs : DirLogs) : Prop where
  nodes : LogHolds dir.nodesWal logs.nodes
  edges : LogHolds dir.edgesWal logs.edges
  props : LogHolds dir.propsWal logs.props

/-- The write sets no property whose name's length does not fit its byte. -/
def StoreWrite.ShortName : StoreWrite → Prop
  | .insertProp _ prop _ _ => (utf8Bytes prop).length < 256
  | _ => True

def TxCall.ShortName : TxCall → Prop
  | .setProp _ prop _ _ => (utf8Bytes prop).length < 256
  | _ => True

/-- One record more at most. -/
def GrowsByOne (before after : List LogRecord) : Prop :=
  after = before ∨ ∃ r, after = before ++ [r]

theorem GrowsByOne.isPrefix {before after : List LogRecord} (h : GrowsByOne before after) :
    before <+: after := by
  rcases h with rfl | ⟨r, rfl⟩
  · exact List.prefix_rfl
  · exact List.prefix_append _ _

namespace Database

/-- Every record sent to a WAL since the database was opened. -/
def history (db : Database) : List LogRecord :=
  db.nodes.history ++ db.edges.history ++ db.props.history

/-- The stores differ in their free ids at most. -/
structure SameStores (db db' : Database) : Prop where
  nodeRecords : db'.nodes.records = db.nodes.records
  nodeWal : db'.nodes.wal = db.nodes.wal
  edgeRecords : db'.edges.records = db.edges.records
  edgeWal : db'.edges.wal = db.edges.wal
  props : db'.props = db.props

theorem SameStores.trans {db db' db'' : Database} (h : db.SameStores db')
    (h' : db'.SameStores db'') : db.SameStores db'' :=
  ⟨h'.nodeRecords.trans h.nodeRecords, h'.nodeWal.trans h.nodeWal,
    h'.edgeRecords.trans h.edgeRecords, h'.edgeWal.trans h.edgeWal, h'.props.trans h.props⟩

theorem SameStores.maps {db db' : Database} (h : db.SameStores db') : db'.maps = db.maps := by
  rw [Database.maps, Database.maps, h.nodeRecords, h.edgeRecords, h.props]

/-- More was sent to each of the logs. -/
structure Extends (db db' : Database) : Prop where
  nodes : db.nodes.history <+: db'.nodes.history
  edges : db.edges.history <+: db'.edges.history
  props : db.props.history <+: db'.props.history

theorem Extends.refl (db : Database) : db.Extends db :=
  ⟨List.prefix_rfl, List.prefix_rfl, List.prefix_rfl⟩

theorem Extends.trans {db db' db'' : Database} (h : db.Extends db') (h' : db'.Extends db'') :
    db.Extends db'' :=
  ⟨h.nodes.trans h'.nodes, h.edges.trans h'.edges, h.props.trans h'.props⟩

theorem Extends.mem_history {db db' : Database} (h : db.Extends db') {r : LogRecord}
    (hr : r ∈ db.history) : r ∈ db'.history := by
  simp only [history, List.mem_append] at hr ⊢
  rcases hr with (hr | hr) | hr
  · exact Or.inl (Or.inl (h.nodes.subset hr))
  · exact Or.inl (Or.inr (h.edges.subset hr))
  · exact Or.inr (h.props.subset hr)

/-- No log was sent more than one record. -/
structure SendsOnce (db db' : Database) : Prop where
  nodes : GrowsByOne db.nodes.history db'.nodes.history
  edges : GrowsByOne db.edges.history db'.edges.history
  props : GrowsByOne db.props.history db'.props.history

theorem SendsOnce.extends {db db' : Database} (h : db.SendsOnce db') : db.Extends db' :=
  ⟨h.nodes.isPrefix, h.edges.isPrefix, h.props.isPrefix⟩

section Persistent
variable [Bincode Node] [Bincode Edge] [Bincode (Option Value)]

/-- The three flushed files are frames of records, and the node and edge maps are theirs. -/
structure Logged (logs : DirLogs) (db : Database) : Prop where
  nodes : db.nodes.Synced logs.nodes
  edges : db.edges.Synced logs.edges
  props : db.props.Logged logs.props

variable {logs : DirLogs} {db db' : Database}

omit [Bincode Node] [Bincode Edge] [Bincode (Option Value)] in
theorem synced_of_same {ρ : Type} [Bincode ρ] {s t : RecordStore ρ} {log : List LogRecord}
    (h : s.Synced log) (hrec : t.records = s.records) (hwal : t.wal = s.wal) :
    t.Synced log ∧ t.history = s.history := by
  have hhist : t.history = s.history := by
    rw [RecordStore.history, RecordStore.sent, hwal]
    rfl
  have hfile : t.file = s.file := by
    rw [RecordStore.file, hwal]
    rfl
  exact ⟨⟨by rw [hwal]; exact h.wal, by rw [hfile, hhist]; exact h.file,
    by rw [hrec, hhist]; exact h.records⟩, hhist⟩

omit [Bincode (Option Value)] in
theorem SameStores.logged (hs : db.SameStores db') (h : db.Logged logs) : db'.Logged logs :=
  ⟨(synced_of_same h.nodes hs.nodeRecords hs.nodeWal).1,
    (synced_of_same h.edges hs.edgeRecords hs.edgeWal).1, by rw [hs.props]; exact h.props⟩

/-! ## One write -/

omit [Bincode Node] [Bincode Edge] [Bincode (Option Value)] in
theorem growsByOne_of_logsOnce {ρ : Type} [Bincode ρ] {s t : RecordStore ρ}
    (h : s.LogsOnce t) : GrowsByOne s.history t.history := by
  obtain ⟨cmds, hlen, hl⟩ := h
  rw [hl.history]
  match cmds, hlen with
  | [], _ => exact Or.inl (List.append_nil _)
  | [cmd], _ =>
    cases hcmd : cmd.record? with
    | none => exact Or.inl (by simp [records, hcmd])
    | some r => exact Or.inr ⟨r, by simp [records, hcmd]⟩

theorem Logged.perform (h : db.Logged logs) (txId : TxId) (w : StoreWrite) :
    (db.perform txId w).Logged logs ∧ db.SendsOnce (db.perform txId w) := by
  obtain ⟨wn, hwn⟩ := h.nodes.wal
  obtain ⟨we, hwe⟩ := h.edges.wal
  obtain ⟨wp, hwp⟩ := h.props.wal
  have hnode : ∀ {nodes : NodeStore}, db.nodes.toRecordStore.LogsOnce nodes.toRecordStore →
      ({ db with nodes } : Database).Logged logs ∧ db.SendsOnce { db with nodes } := by
    intro nodes hl
    obtain ⟨cmds, -, hcmds⟩ := id hl
    exact ⟨⟨h.nodes.logs hcmds, h.edges, h.props⟩,
      ⟨growsByOne_of_logsOnce hl, Or.inl rfl, Or.inl rfl⟩⟩
  have hedge : ∀ {edges : EdgeStore}, RecordStore.LogsOnce db.edges edges →
      ({ db with edges } : Database).Logged logs ∧ db.SendsOnce { db with edges } := by
    intro edges hl
    obtain ⟨cmds, -, hcmds⟩ := id hl
    exact ⟨⟨h.nodes, h.edges.logs hcmds, h.props⟩,
      ⟨Or.inl rfl, growsByOne_of_logsOnce hl, Or.inl rfl⟩⟩
  cases w with
  | insertNode id labels propsRow =>
    exact hnode ((RecordStore.insertWithId_logs hwn id _).once (by simp))
  | updateLabels id labels =>
    exact hnode (NodeStore.perform_logs hwn (.updateLabels id labels txId))
  | deleteNode id => exact hnode (NodeStore.perform_logs hwn (.softDelete id txId))
  | insertEdge id src dst etype propsRow =>
    exact hedge ((RecordStore.insertWithId_logs hwe id _).once (by simp))
  | deleteEdge id => exact hedge (EdgeStore.perform_logs hwe (.softDelete id txId))
  | insertProp label prop row value =>
    exact ⟨⟨h.nodes, h.edges, h.props.insertProp label prop row value⟩,
      Or.inl rfl, Or.inl rfl, Or.inr ⟨_, PropStore.insertProp_history hwp label prop row value⟩⟩

theorem Logged.perform_mirrored (h : db.Logged logs) (hm : db.props.Mirrored logs.props)
    (txId : TxId) {w : StoreWrite} (hw : w.ShortName) :
    (db.perform txId w).props.Mirrored logs.props := by
  cases w with
  | insertProp label prop row value => exact hm.insertProp h.props value hw
  | insertNode id labels propsRow => exact hm
  | updateLabels id labels => exact hm
  | deleteNode id => exact hm
  | insertEdge id src dst etype propsRow => exact hm
  | deleteEdge id => exact hm

theorem perform_txManager (db : Database) (txId : TxId) (w : StoreWrite) :
    (db.perform txId w).txManager = db.txManager := by
  cases w <;> rfl

/-! ## The loops of a commit -/

theorem Logged.performAll (txId : TxId) (ws : List StoreWrite) : ∀ {db : Database},
    db.Logged logs →
    (db.performAll txId ws).Logged logs ∧ db.Extends (db.performAll txId ws) := by
  induction ws with
  | nil => exact fun h => ⟨h, Extends.refl _⟩
  | cons w ws ih =>
    intro db h
    obtain ⟨hlog, hone⟩ := h.perform txId w
    obtain ⟨hlog', hext⟩ := ih hlog
    exact ⟨hlog', hone.extends.trans hext⟩

theorem Logged.performAll_mirrored (txId : TxId) (ws : List StoreWrite) : ∀ {db : Database},
    db.Logged logs → db.props.Mirrored logs.props → (∀ w ∈ ws, w.ShortName) →
    (db.performAll txId ws).props.Mirrored logs.props := by
  induction ws with
  | nil => exact fun _ hm _ => hm
  | cons w ws ih =>
    intro db h hm hw
    exact ih (h.perform txId w).1 (h.perform_mirrored hm txId (hw w List.mem_cons_self))
      fun w' hw' => hw w' (List.mem_cons_of_mem w hw')

theorem performAll_txManager (txId : TxId) (ws : List StoreWrite) : ∀ db : Database,
    (db.performAll txId ws).txManager = db.txManager := by
  induction ws with
  | nil => exact fun _ => rfl
  | cons w ws ih => exact fun db => (ih _).trans (perform_txManager db txId w)

theorem performAll_append (txId : TxId) (db : Database) (ws ws' : List StoreWrite) :
    db.performAll txId (ws ++ ws') = (db.performAll txId ws).performAll txId ws' :=
  List.foldl_append

/-! ## A transaction -/

omit [Bincode Node] [Bincode Edge] [Bincode (Option Value)] in
/-- What filling the buffers leaves alone. -/
theorem apply_same (p : Transaction × Database) (c : TxCall) :
    p.2.SameStores (TxCall.apply p c).2 ∧ (TxCall.apply p c).2.txManager = p.2.txManager ∧
    (TxCall.apply p c).1.txId = p.1.txId ∧ (TxCall.apply p c).1.isWrite = p.1.isWrite ∧
    (TxCall.apply p c).1.committed = p.1.committed := by
  obtain ⟨tx, db⟩ := p
  have halloc : ∀ {ρ : Type} (s : RecordStore ρ), s.allocId.2.wal = s.wal := by
    intro ρ s
    unfold RecordStore.allocId
    split <;> rfl
  cases c with
  | createNode labels propsRow =>
    exact ⟨⟨RecordStore.allocId_records _, halloc _, rfl, rfl, rfl⟩, rfl, rfl, rfl, rfl⟩
  | createEdge src dst etype propsRow =>
    exact ⟨⟨rfl, rfl, RecordStore.allocId_records _, halloc _, rfl⟩, rfl, rfl, rfl, rfl⟩
  | updateNodeLabels id labels => exact ⟨⟨rfl, rfl, rfl, rfl, rfl⟩, rfl, rfl, rfl, rfl⟩
  | deleteNode id => exact ⟨⟨rfl, rfl, rfl, rfl, rfl⟩, rfl, rfl, rfl, rfl⟩
  | deleteEdge id => exact ⟨⟨rfl, rfl, rfl, rfl, rfl⟩, rfl, rfl, rfl, rfl⟩
  | setProp label prop row value => exact ⟨⟨rfl, rfl, rfl, rfl, rfl⟩, rfl, rfl, rfl, rfl⟩

omit [Bincode Node] [Bincode Edge] [Bincode (Option Value)] in
theorem foldl_apply_same (calls : List TxCall) : ∀ p : Transaction × Database,
    p.2.SameStores (calls.foldl TxCall.apply p).2 ∧
    (calls.foldl TxCall.apply p).2.txManager = p.2.txManager ∧
    (calls.foldl TxCall.apply p).1.txId = p.1.txId ∧
    (calls.foldl TxCall.apply p).1.isWrite = p.1.isWrite ∧
    (calls.foldl TxCall.apply p).1.committed = p.1.committed := by
  induction calls with
  | nil => exact fun p => ⟨⟨rfl, rfl, rfl, rfl, rfl⟩, rfl, rfl, rfl, rfl⟩
  | cons c calls ih =>
    intro p
    obtain ⟨hs, hm, ht, hw, hc⟩ := apply_same p c
    obtain ⟨hs', hm', ht', hw', hc'⟩ := ih (TxCall.apply p c)
    exact ⟨hs.trans hs', hm'.trans hm, ht'.trans ht, hw'.trans hw, hc'.trans hc⟩

omit [Bincode Node] [Bincode Edge] [Bincode (Option Value)] in
theorem prepare_same (db : Database) (script : TxScript) :
    db.SameStores (db.prepare script).2 ∧
    (db.prepare script).2.txManager = db.txManager.beginWrite.2 ∧
    (db.prepare script).1.txId = db.txManager.nextTxId ∧
    (db.prepare script).1.isWrite = true ∧ (db.prepare script).1.committed = false := by
  obtain ⟨hs, hm, ht, hw, hc⟩ := foldl_apply_same script.calls db.beginWrite
  have hbegin : db.SameStores db.beginWrite.2 := ⟨rfl, rfl, rfl, rfl, rfl⟩
  exact ⟨hbegin.trans hs, hm, ht, hw, hc⟩

omit [Bincode Node] [Bincode Edge] [Bincode (Option Value)] in
/-- Short names in the calls are short names in the buffer. -/
theorem prepare_shortName (db : Database) {script : TxScript}
    (h : ∀ c ∈ script.calls, c.ShortName) :
    ∀ w ∈ (db.prepare script).1.writes, w.ShortName := by
  have hprops : ∀ (calls : List TxCall) (p : Transaction × Database),
      (∀ q ∈ p.1.propWrites, (utf8Bytes q.2.1).length < 256) → (∀ c ∈ calls, c.ShortName) →
      ∀ q ∈ (calls.foldl TxCall.apply p).1.propWrites, (utf8Bytes q.2.1).length < 256 := by
    intro calls
    induction calls with
    | nil => exact fun p hp _ => hp
    | cons c calls ih =>
      -- only `set_prop` adds to the property buffer
      intro p hp hc
      refine ih _ ?_ fun c' hc' => hc c' (List.mem_cons_of_mem c hc')
      have hshort := hc c List.mem_cons_self
      obtain ⟨tx, db⟩ := p
      cases c with
      | setProp label prop row value =>
        intro q hq
        rcases List.mem_append.mp hq with hq | hq
        · exact hp q hq
        · rw [List.mem_singleton.mp hq]
          exact hshort
      | createNode labels propsRow => exact hp
      | createEdge src dst etype propsRow => exact hp
      | updateNodeLabels id labels => exact hp
      | deleteNode id => exact hp
      | deleteEdge id => exact hp
  have hbuf := hprops script.calls db.beginWrite (fun q hq => absurd hq List.not_mem_nil) h
  intro w hw
  simp only [Transaction.writes, List.mem_append, List.mem_map] at hw
  rcases hw with ((((hw | hw) | hw) | hw) | hw) | hw
  · obtain ⟨q, -, rfl⟩ := hw; trivial
  · obtain ⟨q, -, rfl⟩ := hw; trivial
  · obtain ⟨q, -, rfl⟩ := hw; trivial
  · obtain ⟨q, -, rfl⟩ := hw; trivial
  · obtain ⟨q, -, rfl⟩ := hw; trivial
  · obtain ⟨q, hq, rfl⟩ := hw
    exact hbuf q hq

/-! ## One transaction at a time -/

/-- Nobody holds a ticket. -/
def Idle (db : Database) : Prop := db.txManager.nextTxId = db.txManager.committedTxId + 1

/-- A transaction that runs alone has its turn at once, to commit or to roll back. -/
theorem prepare_turn (h : db.Idle) (script : TxScript) :
    ∃ m, m.nextTxId = m.committedTxId + 1 ∧
      (db.prepare script).1.commit (db.prepare script).2 =
        .ok ({ (db.prepare script).1 with committed := true },
          ((db.prepare script).2.withManager m).performAll (db.prepare script).1.txId
            (db.prepare script).1.writes) ∧
      (db.prepare script).1.rollback (db.prepare script).2 =
        some ({ (db.prepare script).1 with committed := true },
          (db.prepare script).2.withManager m) := by
  obtain ⟨-, hm, ht, hw, hc⟩ := prepare_same db script
  let m : TxManager :=
    { (db.prepare script).2.txManager with committedTxId := (db.prepare script).1.txId }
  have hadv : (db.prepare script).2.txManager.advance (db.prepare script).1.txId = some m := by
    rw [TxManager.advance_eq_some_iff]
    -- nobody else holds a ticket, so the counter stands just before ours
    refine ⟨?_, rfl⟩
    rw [hm, ht]
    show db.txManager.committedTxId = db.txManager.nextTxId - 1
    rw [h, UInt64.add_sub_cancel]
  refine ⟨m, ?_, ?_, ?_⟩
  · show (db.prepare script).2.txManager.nextTxId = (db.prepare script).1.txId + 1
    rw [hm, ht]
    rfl
  · simp only [Transaction.commit, hw, hc, TxManager.commit_eq, hadv, Bool.not_true,
      Bool.false_eq_true, if_false]
    rfl
  · simp only [Transaction.rollback, hw, TxManager.rollback, hadv, if_true]

/-- **A transaction that runs alone ends**: its commit is never out of turn. -/
theorem runTx_eq (h : db.Idle) (script : TxScript) :
    ∃ m, m.nextTxId = m.committedTxId + 1 ∧
      db.runTx script = some (if script.commits then
        ((db.prepare script).2.withManager m).performAll (db.prepare script).1.txId
          (db.prepare script).1.writes
        else (db.prepare script).2.withManager m) := by
  obtain ⟨m, hidle, hcommit, hrollback⟩ := prepare_turn h script
  refine ⟨m, hidle, ?_⟩
  unfold runTx
  dsimp only
  split
  · rw [hcommit]
  · rw [hrollback]
    rfl

omit [Bincode Node] [Bincode Edge] [Bincode (Option Value)] in
theorem sameStores_withManager (db : Database) (m : TxManager) :
    db.SameStores (db.withManager m) := ⟨rfl, rfl, rfl, rfl, rfl⟩

/-- Any number of transactions, one at a time: all of them end, and the logs stay in step. -/
theorem Logged.runTxs (scripts : List TxScript) : ∀ {db : Database}, db.Logged logs → db.Idle →
    ∃ db', run Database.runTx db scripts = some db' ∧ db'.Logged logs ∧ db'.Idle ∧
      (db.props.Mirrored logs.props → (∀ s ∈ scripts, ∀ c ∈ s.calls, c.ShortName) →
        db'.props.Mirrored logs.props) := by
  induction scripts with
  | nil => exact fun {db} h hi => ⟨db, rfl, h, hi, fun hm _ => hm⟩
  | cons script scripts ih =>
    intro db h hi
    obtain ⟨m, hidle, hrun⟩ := runTx_eq hi script
    have hsame := (prepare_same db script).1.trans (sameStores_withManager _ m)
    have hlog := hsame.logged h
    have hmir : db.props.Mirrored logs.props →
        ((db.prepare script).2.withManager m).props.Mirrored logs.props := by
      intro hm
      rw [hsame.props]
      exact hm
    by_cases hc : script.commits = true
    · rw [if_pos hc] at hrun
      obtain ⟨hlog', -⟩ := hlog.performAll (db.prepare script).1.txId (db.prepare script).1.writes
      have hidle' : (((db.prepare script).2.withManager m).performAll (db.prepare script).1.txId
          (db.prepare script).1.writes).Idle := by
        rw [Idle, performAll_txManager]
        exact hidle
      obtain ⟨db', hrun', hlog'', hidle'', hmir'⟩ := ih hlog' hidle'
      refine ⟨db', by rw [run_cons_of_step hrun, hrun'], hlog'', hidle'', fun hm hs => ?_⟩
      refine hmir' ?_ fun s hs' => hs s (List.mem_cons_of_mem script hs')
      exact hlog.performAll_mirrored _ _ (hmir hm)
        (prepare_shortName db (hs script List.mem_cons_self))
    · rw [if_neg hc] at hrun
      obtain ⟨db', hrun', hlog'', hidle'', hmir'⟩ := ih hlog hidle
      exact ⟨db', by rw [run_cons_of_step hrun, hrun'], hlog'', hidle'', fun hm hs =>
        hmir' (hmir hm) fun s hs' => hs s (List.mem_cons_of_mem script hs')⟩

/-! ## Opening -/

theorem open_logged {dir : Directory} (hdir : dir.Holds logs) :
    ∃ db, Database.open dir = .ok db ∧ db.Logged logs ∧ db.Idle ∧
      db.props.Mirrored logs.props ∧ db.history = [] ∧ db.txManager = TxManager.new ∧
      db.nodes.records = logs.nodes.foldl applyRecord ∅ ∧
      db.edges.records = logs.edges.foldl applyRecord ∅ := by
  obtain ⟨nodes, hn, hnrec, -⟩ := NodeStore.open_eq hdir.nodes
  obtain ⟨edges, he, herec, -⟩ := EdgeStore.open_eq hdir.edges
  obtain ⟨props, hp, hplog, hpmir, hphist⟩ := PropStore.open_eq hdir.props
  obtain ⟨hnsync, hnhist⟩ := NodeStore.open_synced hdir.nodes hn
  obtain ⟨hesync, hehist⟩ := EdgeStore.open_synced hdir.edges he
  refine ⟨{ txManager := TxManager.new, nodes, edges, props }, ?_, ⟨hnsync, hesync, hplog⟩, rfl,
    hpmir, ?_, rfl, hnrec, herec⟩
  · simp only [Database.open, hn, he, hp]
  · rw [history, hnhist, hehist, hphist]
    rfl

/-- Every record in the logs fits its length field. -/
def AllFit (logs : DirLogs) (db : Database) : Prop :=
  (∀ r ∈ logs.nodes ++ logs.edges ++ logs.props, r.Fits) ∧ ∀ r ∈ db.history, r.Fits

omit [Bincode Node] [Bincode Edge] [Bincode (Option Value)] in
theorem AllFit.of_extends (h : AllFit logs db') (hext : db.Extends db') : AllFit logs db :=
  ⟨h.1, fun r hr => h.2 r (hext.mem_history hr)⟩

omit [Bincode Node] [Bincode Edge] [Bincode (Option Value)] in
/-- One log of the three: what was found in it and what was sent to it. -/
theorem AllFit.log (h : AllFit logs db) {found sent : List LogRecord}
    (hfound : found ⊆ logs.nodes ++ logs.edges ++ logs.props) (hsent : sent ⊆ db.history) :
    ∀ r ∈ found ++ sent, r.Fits := by
  intro r hr
  rcases List.mem_append.mp hr with hr | hr
  · exact h.1 r (hfound hr)
  · exact h.2 r (hsent hr)

/-- **Reopening gives the maps back**: three databases on the same logs, one for each file, are
recovered into one. -/
theorem reopen_files {n e p : Database} (hn : n.Logged logs) (he : e.Logged logs)
    (hp : p.Logged logs) (hfn : AllFit logs n) (hfe : AllFit logs e) (hfp : AllFit logs p) :
    ∃ db, Database.open ⟨n.nodes.file, e.edges.file, p.props.file⟩ = .ok db ∧
      db.txManager = TxManager.new ∧ db.nodes.records = n.nodes.records ∧
      db.edges.records = e.edges.records ∧
      (p.props.Mirrored logs.props → db.props.columns = p.props.columns) := by
  have hnfit : ∀ r ∈ logs.nodes ++ n.nodes.history, r.Fits :=
    hfn.log (by simp [List.append_assoc]) (by simp [history, List.append_assoc])
  have hefit : ∀ r ∈ logs.edges ++ e.edges.history, r.Fits :=
    hfe.log (by simp [List.append_assoc]) (by simp [history, List.append_assoc])
  have hpfit : ∀ r ∈ logs.props ++ p.props.history, r.Fits :=
    hfp.log (by simp [List.append_assoc]) (by simp [history, List.append_assoc])
  obtain ⟨nodes, hno, hnrec, -⟩ := NodeStore.open_eq (hn.nodes.logHolds hnfit)
  obtain ⟨edges, heo, herec, -⟩ := EdgeStore.open_eq (he.edges.logHolds hefit)
  obtain ⟨props, hpo, hpcol⟩ := PropStore.reopen_columns hp.props hpfit
  refine ⟨{ txManager := TxManager.new, nodes, edges, props }, ?_, rfl, ?_, ?_, ?_⟩
  · simp only [Database.open, hno, heo, hpo]
  · exact hnrec.trans hn.nodes.records.symm
  · exact herec.trans he.edges.records.symm
  · exact fun hm => hpcol.trans hm.symm

/-- In particular what one database leaves. -/
theorem Logged.reopen (h : db.Logged logs) (hfit : AllFit logs db) :
    ∃ reopened, Database.open db.dir = .ok reopened ∧
      reopened.txManager = TxManager.new ∧ reopened.nodes.records = db.nodes.records ∧
      reopened.edges.records = db.edges.records ∧
      (db.props.Mirrored logs.props → reopened.props.columns = db.props.columns) :=
  reopen_files h h h hfit hfit hfit

end Persistent
end Database

/-! ## A fresh directory -/

/-- A directory without files. -/
def Directory.fresh : Directory := ⟨[], [], []⟩

theorem Directory.fresh_holds : Directory.fresh.Holds ⟨[], [], []⟩ :=
  ⟨LogHolds.empty, LogHolds.empty, LogHolds.empty⟩

/-- What opening the fresh directory gives. -/
def Database.fresh : Database :=
  { txManager := TxManager.new
    nodes := NodeStore.fresh
    edges := EdgeStore.fresh
    props := { columns := ∅, schemas := ∅, wal := some { opened := magic, sent := [] } } }

end LightGraph
