import LightGraph.Proof.LogFormat
import LightGraph.Storage.NodeStore
import LightGraph.Storage.EdgeStore
import LightGraph.Storage.Bincode

/-!
# Recovery follows the live store

A store is two machines that see the same operations: the live map, changed in place, and the
log, which will be replayed. They stay together because **every operation sends at most one
record, and that record does to the replayed map what the operation did to the live one**.
`RecordStore.Logs` says that of a single call; it is stated for each operation once, and the
two results over whole runs use nothing else about the operations.

* `prefixConsistent_of_logs` — the log cut behind its `k`-th record replays to the map as it
  stood right after the operation that sent that record;
* `Replay.fold_records` — replaying everything gives the map at the end.
-/

set_option autoImplicit false

namespace LightGraph

open Lib

variable {ρ : Type}

/-! ## The map a log stands for -/

section Map
variable [Bincode ρ]

/-- What one record does to the map it is replayed into. -/
def applyRecord (m : FiniteMap UInt64 ρ) (r : LogRecord) : FiniteMap UInt64 ρ :=
  if r.opcode = 1 then
    match Bincode.deserialize r.payload with
    | some rec => m.put r.id rec
    | none => m
  else if r.opcode = 2 then m.remove r.id
  else m

theorem applyRecord_insert (m : FiniteMap UInt64 ρ) (id : UInt64) (r : ρ) :
    applyRecord m ⟨1, id, Bincode.bytes r⟩ = m.put id r := by
  simp only [applyRecord, if_true, Bincode.deserialize_bytes]

theorem applyRecord_delete (m : FiniteMap UInt64 ρ) (id : UInt64) :
    applyRecord m ⟨2, id, []⟩ = m.remove id := by
  simp [applyRecord]

/-- A DELETE of an absent id changes nothing in `open`, and removing it changes nothing. -/
theorem Replay.onRecord_records (st : Replay ρ) (r : LogRecord) :
    (st.onRecord r).records = applyRecord st.records r := by
  unfold Replay.onRecord applyRecord
  split
  · cases (Bincode.deserialize r.payload : Option ρ) <;> rfl
  · split
    · cases h : st.records.get r.id with
      | none => exact (FiniteMap.remove_of_get_none h).symm
      | some v => rfl
    · rfl

theorem Replay.fold_records (rs : List LogRecord) (st : Replay ρ) :
    (rs.foldl Replay.onRecord st).records = rs.foldl applyRecord st.records := by
  induction rs generalizing st with
  | nil => rfl
  | cons r rs ih => rw [List.foldl_cons, List.foldl_cons, ih, Replay.onRecord_records]

/-- The state `open` builds from a log of these records. -/
def Replay.ofLog (rs : List LogRecord) : Replay ρ := rs.foldl Replay.onRecord Replay.empty

theorem Replay.ofLog_records (rs : List LogRecord) :
    (Replay.ofLog rs : Replay ρ).records = rs.foldl applyRecord ∅ :=
  Replay.fold_records rs Replay.empty

/-- Opening a file a run has left. -/
theorem openReplay_eq {file : Bytes} {rs : List LogRecord} (h : LogHolds file rs) :
    RecordStore.openReplay file =
      .ok ({ records := (Replay.ofLog rs : Replay ρ).records
             nextId := if rs = [] then 0 else (Replay.ofLog rs : Replay ρ).maxId + 1
             freeList := (Replay.ofLog rs : Replay ρ).freeList
             freeCount := (Replay.ofLog rs : Replay ρ).freeCount
             wal := some { opened := spawnFile file, sent := [] } },
           (Replay.ofLog rs : Replay ρ).inserted) := by
  rw [RecordStore.openReplay, h.replay]
  simp only [h.length_gt_iff, ne_eq, ite_not]
  rfl

end Map

/-! ## What one call sends -/

namespace RecordStore

/-- The records sent to the WAL since the store was opened. -/
def history (s : RecordStore ρ) : List LogRecord := LightGraph.records s.sent

/-- From `s` to `t` these commands were sent, all inserts and deletes, and their records do to a
replayed map what happened to the live one. -/
structure Logs [Bincode ρ] (s t : RecordStore ρ) (cmds : List WalCmd) : Prop where
  wal : ∃ w, s.wal = some w ∧ t.wal = some { w with sent := w.sent ++ cmds }
  records : t.records = (LightGraph.records cmds).foldl applyRecord s.records
  recorded : ∀ cmd ∈ cmds, cmd.record?.isSome = true

/-- A call that sends one record at most. -/
def LogsOnce [Bincode ρ] (s t : RecordStore ρ) : Prop :=
  ∃ cmds : List WalCmd, cmds.length ≤ 1 ∧ s.Logs t cmds

section Calls
variable [Bincode ρ] {s t u : RecordStore ρ} {w : WalLog} {cs ds : List WalCmd}

theorem Logs.isSome (h : s.Logs t cs) : ∃ w, t.wal = some w := by
  obtain ⟨w, _, ht⟩ := h.wal
  exact ⟨_, ht⟩

theorem Logs.sent (h : s.Logs t cs) : t.sent = s.sent ++ cs := by
  obtain ⟨w, hs, ht⟩ := h.wal
  rw [RecordStore.sent, RecordStore.sent, hs, ht]
  rfl

theorem Logs.history (h : s.Logs t cs) : t.history = s.history ++ LightGraph.records cs := by
  rw [RecordStore.history, h.sent, records_append]
  rfl

theorem Logs.refl (h : s.wal = some w) : s.Logs s [] := by
  refine ⟨⟨w, h, ?_⟩, rfl, fun _ hcmd => absurd hcmd List.not_mem_nil⟩
  rw [List.append_nil]
  exact h

theorem Logs.trans (h : s.Logs t cs) (h' : t.Logs u ds) : s.Logs u (cs ++ ds) := by
  obtain ⟨w, hs, ht⟩ := h.wal
  obtain ⟨w', ht', hu⟩ := h'.wal
  rw [ht, Option.some.injEq] at ht'
  subst ht'
  refine ⟨⟨w, hs, ?_⟩, ?_, List.forall_mem_append.mpr ⟨h.recorded, h'.recorded⟩⟩
  · rw [hu, List.append_assoc]
  · rw [h'.records, h.records, records_append, List.foldl_append]

/-- The flushed file of the store is the file it was opened on and what was sent since. -/
theorem Logs.file (h : s.Logs t cs) : t.file = s.file ++ encodeCmds cs := by
  obtain ⟨w, hs, ht⟩ := h.wal
  simp only [RecordStore.file, hs, ht, Option.map_some, Option.getD_some, WalLog.file,
    encodeCmds_append, List.append_assoc]

theorem walInsert_eq (h : s.wal = some w) (id : UInt64) (r : ρ) :
    s.walInsert id r = { s with wal := some (w.send (.insert id (Bincode.bytes r))) } := by
  rw [walInsert, h]
  simp only [Bincode.serialize_eq]

omit [Bincode ρ] in
theorem walDelete_eq (h : s.wal = some w) (id : UInt64) :
    s.walDelete id = { s with wal := some (w.send (.delete id)) } := by
  rw [walDelete, h]

theorem allocId_logs (h : s.wal = some w) : s.Logs s.allocId.2 [] := by
  unfold allocId
  split
  · exact ⟨⟨w, h, by simpa using h⟩, rfl, by simp⟩
  · exact ⟨⟨w, h, by simpa using h⟩, rfl, by simp⟩

theorem insertWithId_logs (h : s.wal = some w) (id : UInt64) (r : ρ) :
    s.Logs (s.insertWithId id r) [.insert id (Bincode.bytes r)] := by
  have hput : ({ s with records := s.records.put id r } : RecordStore ρ).wal = some w := h
  rw [insertWithId, walInsert_eq hput]
  exact ⟨⟨w, h, rfl⟩, (applyRecord_insert s.records id r).symm, by simp [WalCmd.record?]⟩

theorem insert_logs (h : s.wal = some w) (make : UInt64 → ρ) :
    s.Logs (s.insert make).2 [.insert s.allocId.1 (Bincode.bytes (make s.allocId.1))] := by
  have halloc := allocId_logs h
  obtain ⟨w', hw'⟩ := halloc.isSome
  exact halloc.trans (insertWithId_logs hw' s.allocId.1 (make s.allocId.1))

/-- An update of a record that is not there sends nothing. -/
theorem modify_logs_iff (h : s.wal = some w) (id : UInt64) (f : ρ → ρ) :
    ∃ cmds : List WalCmd, cmds.length ≤ 1 ∧ s.Logs (s.modify id f).1 cmds ∧
      (cmds = [] ↔ s.records.get id = none) := by
  unfold modify
  cases hg : s.records.get id with
  | none => exact ⟨[], by simp, Logs.refl h, iff_of_true rfl rfl⟩
  | some r =>
    exact ⟨_, by simp, insertWithId_logs h id (f r),
      iff_of_false (List.cons_ne_nil _ _) (by simp)⟩

theorem modify_logs (h : s.wal = some w) (id : UInt64) (f : ρ → ρ) :
    s.LogsOnce (s.modify id f).1 := by
  obtain ⟨cmds, hlen, hlogs, -⟩ := modify_logs_iff h id f
  exact ⟨cmds, hlen, hlogs⟩

theorem hardDelete_logs (h : s.wal = some w) (id : UInt64) :
    s.Logs (s.hardDelete id).1 [.delete id] := by
  have hrec : (LightGraph.records [.delete id]).foldl applyRecord s.records = s.records.remove id :=
    applyRecord_delete s.records id
  unfold hardDelete
  rw [walDelete_eq h]
  dsimp only
  cases hg : s.records.get id with
  -- the DELETE of an absent id is logged all the same, and replays to nothing
  | none =>
    exact ⟨⟨w, h, rfl⟩, by rw [hrec, FiniteMap.remove_of_get_none hg], by simp [WalCmd.record?]⟩
  | some r => exact ⟨⟨w, h, rfl⟩, by rw [hrec], by simp [WalCmd.record?]⟩

/-- Map and log agree: `log` is what the file held when the store was opened. -/
structure Synced (log : List LogRecord) (s : RecordStore ρ) : Prop where
  wal : ∃ w, s.wal = some w
  file : s.file = magic ++ encodeRecords (log ++ s.history)
  records : s.records = (log ++ s.history).foldl applyRecord ∅

theorem Synced.logs {log : List LogRecord} (h : s.Synced log) (hlogs : s.Logs t cs) :
    t.Synced log := by
  refine ⟨hlogs.isSome, ?_, ?_⟩
  · rw [hlogs.file, h.file, hlogs.history, encodeCmds_eq, List.append_assoc,
      ← encodeRecords_append, List.append_assoc]
  · rw [hlogs.records, h.records, hlogs.history, ← List.append_assoc, ← List.foldl_append]

/-- The flushed file of such a store is one a run has left. -/
theorem Synced.logHolds {log : List LogRecord} (h : s.Synced log)
    (hfit : ∀ r ∈ log ++ s.history, r.Fits) : LogHolds s.file (log ++ s.history) := by
  rw [h.file]
  exact LogHolds.encode hfit

theorem Logs.once (h : s.Logs t cs) (hlen : cs.length ≤ 1) : s.LogsOnce t := ⟨cs, hlen, h⟩

end Calls
end RecordStore

/-! ## The stores' own operations -/

theorem NodeStore.perform_logs [Bincode Node] {s : NodeStore} {w : WalLog} (h : s.wal = some w)
    (op : NodeOp) : s.toRecordStore.LogsOnce (s.perform op).toRecordStore := by
  cases op with
  | insertNode labels propsRow txId =>
    exact (RecordStore.insert_logs h fun id => Node.new id labels propsRow txId).once (by simp)
  | allocIdDirect => exact (RecordStore.allocId_logs h).once (by simp)
  | insertWithId id labels propsRow txId =>
    exact (RecordStore.insertWithId_logs h id _).once (by simp)
  | updateLabels id labels txId => exact RecordStore.modify_logs h id _
  | updatePropsRow id propsRow => exact RecordStore.modify_logs h id _
  | setFirstOut id edgeId => exact RecordStore.modify_logs h id _
  | setFirstIn id edgeId => exact RecordStore.modify_logs h id _
  | softDelete id txId => exact RecordStore.modify_logs h id _
  | hardDelete id => exact (RecordStore.hardDelete_logs h id).once (by simp)

/-- The two silent changes and the record behind them are one logged update. -/
theorem EdgeStore.linkIntoChains_eq [Bincode Edge] (s : EdgeStore)
    (newEdge srcFirstOut dstFirstIn : EdgeId) :
    (EdgeStore.linkIntoChains s newEdge srcFirstOut dstFirstIn).1 =
      (s.modify newEdge fun e => { e with nextOut := srcFirstOut, nextIn := dstFirstIn }).1 := by
  unfold EdgeStore.linkIntoChains EdgeStore.modifySilently EdgeStore.persist RecordStore.modify
  cases hg : s.records.get newEdge with
  | none => simp only [hg]
  | some e =>
    simp only [FiniteMap.get_put_self, FiniteMap.put_put_self]

theorem EdgeStore.perform_logs [Bincode Edge] {s : EdgeStore} {w : WalLog} (h : s.wal = some w)
    (op : EdgeOp) : s.LogsOnce (EdgeStore.perform s op) := by
  cases op with
  | insertEdge src dst etype propsRow txId =>
    exact (RecordStore.insert_logs h fun id => Edge.new id src dst etype propsRow txId).once
      (by simp)
  | allocIdDirect => exact (RecordStore.allocId_logs h).once (by simp)
  | insertWithId id src dst etype propsRow txId =>
    exact (RecordStore.insertWithId_logs h id _).once (by simp)
  | linkIntoChains newEdge srcFirstOut dstFirstIn =>
    have hmod := RecordStore.modify_logs h newEdge
      fun e => { e with nextOut := srcFirstOut, nextIn := dstFirstIn }
    rw [← EdgeStore.linkIntoChains_eq] at hmod
    exact hmod
  | softDelete id txId => exact RecordStore.modify_logs h id _
  | hardDelete id => exact (RecordStore.hardDelete_logs h id).once (by simp)

/-! ## Whole runs

A run is seen through a `view` of the state as a record store, since a node store keeps a
counter beside its records. -/

section Runs
variable [Bincode ρ] {σ ω : Type} (view : σ → RecordStore ρ) (perform : σ → ω → σ)

/-- Every call of the interface sends one record at most. -/
def LoggedCalls : Prop :=
  ∀ (s : σ) (w : WalLog) (op : ω), (view s).wal = some w → (view s).LogsOnce (view (perform s op))

/-- Reopening a store on the first `k` records its run has sent gives the map right after the
call that sent the `k`-th of them, and no record gives no map. -/
def PrefixConsistent (reopen : Bytes → Except IoError σ) (s₀ : σ) (ops : List ω) : Prop :=
  let sent := (view (ops.foldl perform s₀)).history
  ∀ k ≤ sent.length, ∃ s, reopen (magic ++ encodeRecords (sent.take k)) = .ok s ∧
    (k = 0 → (view s).records = ∅) ∧
    (0 < k → ∃ before op after, ops = before ++ op :: after ∧
      (view (before.foldl perform s₀)).history.length + 1 = k ∧
      (view ((before ++ [op]).foldl perform s₀)).history.length = k ∧
      (view s).records = (view ((before ++ [op]).foldl perform s₀)).records)

variable {view perform}

theorem LoggedCalls.run (hlog : LoggedCalls view perform) (ops : List ω) :
    ∀ (s : σ) (w : WalLog), (view s).wal = some w →
      ∃ cmds, (view s).Logs (view (ops.foldl perform s)) cmds := by
  induction ops with
  | nil =>
    intro s w h
    exact ⟨[], RecordStore.Logs.refl h⟩
  | cons op ops ih =>
    intro s w h
    obtain ⟨cs, _, hop⟩ := hlog s w op h
    obtain ⟨w', hw'⟩ := hop.isSome
    obtain ⟨ds, hrest⟩ := ih (perform s op) w' hw'
    exact ⟨cs ++ ds, hop.trans hrest⟩

theorem LoggedCalls.synced (hlog : LoggedCalls view perform) {log : List LogRecord} {s : σ}
    (h : (view s).Synced log) (ops : List ω) : (view (ops.foldl perform s)).Synced log := by
  obtain ⟨w, hw⟩ := h.wal
  obtain ⟨cmds, hrun⟩ := hlog.run ops s w hw
  exact h.logs hrun

/-- The record the `k`-th place of the history holds was sent by one call, and up to there the
history replays to the map after that call. -/
theorem LoggedCalls.take_history (hlog : LoggedCalls view perform) {s : σ} {w : WalLog}
    (hw : (view s).wal = some w) (hsent : w.sent = []) (ops : List ω) :
    ∀ k, 0 < k → k ≤ (view (ops.foldl perform s)).history.length →
      ∃ before op after, ops = before ++ op :: after ∧
        (view (before.foldl perform s)).history.length + 1 = k ∧
        (view ((before ++ [op]).foldl perform s)).history.length = k ∧
        (((view (ops.foldl perform s)).history.take k).foldl applyRecord (view s).records
          = (view ((before ++ [op]).foldl perform s)).records) := by
  have hstart : (view s).history = [] := by
    rw [RecordStore.history, RecordStore.sent, hw, Option.map_some, Option.getD_some, hsent,
      records_nil]
  -- from the end of the run: the last call sent the last record or none
  induction ops using List.reverseRecOn with
  | nil =>
    intro k hk hle
    rw [List.foldl_nil, hstart] at hle
    simp at hle
    omega
  | append_singleton ops op ih =>
    intro k hk hle
    obtain ⟨cs, hrun⟩ := hlog.run ops s w hw
    obtain ⟨w', hw'⟩ := hrun.isSome
    obtain ⟨ds, hlen, hop⟩ := hlog (ops.foldl perform s) w' op hw'
    have hsnoc : (ops ++ [op]).foldl perform s = perform (ops.foldl perform s) op := by
      rw [List.foldl_append]
      rfl
    have hhist := hop.history
    rw [← hsnoc] at hhist
    by_cases hold : k ≤ (view (ops.foldl perform s)).history.length
    · -- the record was there before this call
      obtain ⟨before, op', after, hops, hb, hb', heq⟩ := ih k hk hold
      refine ⟨before, op', after ++ [op], by rw [hops]; simp, hb, hb', ?_⟩
      rw [hhist, List.take_append_of_le_length hold, heq]
    · -- this call sent it
      have hrec : (records ds).length ≤ 1 :=
        Nat.le_trans (List.length_filterMap_le _ _) hlen
      have htotal := congrArg List.length hhist
      rw [List.length_append] at htotal
      refine ⟨ops, op, [], rfl, by omega, by omega, ?_⟩
      rw [List.take_of_length_le (by omega), hsnoc, (hrun.trans hop).records,
        (hrun.trans hop).history, hstart, List.nil_append]

/-- **A log cut behind a record replays to the live map behind that record.** -/
theorem prefixConsistent_of_logs (hlog : LoggedCalls view perform)
    {reopen : Bytes → Except IoError σ}
    (hopen : ∀ rs : List LogRecord, (∀ r ∈ rs, r.Fits) →
      ∃ s, reopen (magic ++ encodeRecords rs) = .ok s ∧
        (view s).records = rs.foldl applyRecord ∅)
    {s₀ : σ} {w : WalLog} (hw : (view s₀).wal = some w) (hsent : w.sent = [])
    (hempty : (view s₀).records = ∅) (ops : List ω)
    (hfit : ∀ r ∈ (view (ops.foldl perform s₀)).history, r.Fits) :
    PrefixConsistent view perform reopen s₀ ops := by
  intro k hk
  obtain ⟨s, hs, hrec⟩ := hopen (((view (ops.foldl perform s₀)).history).take k)
    fun r hr => hfit r (List.mem_of_mem_take hr)
  refine ⟨s, hs, ?_, ?_⟩
  · rintro rfl
    rw [hrec, List.take_zero, List.foldl_nil]
  · intro hpos
    obtain ⟨before, op, after, hops, hb, hb', heq⟩ :=
      hlog.take_history hw hsent ops k hpos hk
    refine ⟨before, op, after, hops, hb, hb', ?_⟩
    rw [hrec, ← heq, hempty]

end Runs

/-! ## Opening the stores -/

theorem NodeStore.open_eq [Bincode Node] {file : Bytes} {rs : List LogRecord}
    (h : LogHolds file rs) :
    ∃ s, NodeStore.open file = .ok s ∧ s.records = rs.foldl applyRecord ∅ ∧
      s.wal = some { opened := spawnFile file, sent := [] } ∧
      s.freeList = (Replay.ofLog rs : Replay Node).freeList ∧
      s.nextId = if rs = [] then 0 else (Replay.ofLog rs : Replay Node).maxId + 1 := by
  rw [NodeStore.open, openReplay_eq h]
  exact ⟨_, rfl, Replay.ofLog_records rs, rfl, rfl, rfl⟩

theorem EdgeStore.open_eq [Bincode Edge] {file : Bytes} {rs : List LogRecord}
    (h : LogHolds file rs) :
    ∃ s, EdgeStore.open file = .ok s ∧ s.records = rs.foldl applyRecord ∅ ∧
      s.wal = some { opened := spawnFile file, sent := [] } ∧
      s.freeList = (Replay.ofLog rs : Replay Edge).freeList ∧
      s.nextId = if rs = [] then 0 else (Replay.ofLog rs : Replay Edge).maxId + 1 := by
  rw [EdgeStore.open, openReplay_eq h]
  exact ⟨_, rfl, Replay.ofLog_records rs, rfl, rfl, rfl⟩

theorem synced_of_opened [Bincode ρ] {file : Bytes} {log : List LogRecord}
    (hfile : LogHolds file log) {s : RecordStore ρ}
    (hrec : s.records = log.foldl applyRecord ∅)
    (hwal : s.wal = some { opened := spawnFile file, sent := [] }) :
    s.Synced log ∧ s.history = [] := by
  have hnil : s.history = [] := by
    rw [RecordStore.history, RecordStore.sent, hwal]
    rfl
  refine ⟨⟨⟨_, hwal⟩, ?_, ?_⟩, hnil⟩
  · rw [hnil, List.append_nil, RecordStore.file, hwal, ← hfile.content]
    simp [WalLog.file]
  · rw [hnil, List.append_nil, hrec]

theorem NodeStore.open_synced [Bincode Node] {file : Bytes} {log : List LogRecord}
    {s : NodeStore} (hfile : LogHolds file log) (hopen : NodeStore.open file = .ok s) :
    s.Synced log ∧ s.history = [] := by
  obtain ⟨t, ht, hrec, hwal, -⟩ := NodeStore.open_eq hfile
  rw [ht, Except.ok.injEq] at hopen
  subst hopen
  exact synced_of_opened hfile hrec hwal

theorem EdgeStore.open_synced [Bincode Edge] {file : Bytes} {log : List LogRecord}
    {s : EdgeStore} (hfile : LogHolds file log) (hopen : EdgeStore.open file = .ok s) :
    s.Synced log ∧ s.history = [] := by
  obtain ⟨t, ht, hrec, hwal, -⟩ := EdgeStore.open_eq hfile
  rw [ht, Except.ok.injEq] at hopen
  subst hopen
  exact synced_of_opened hfile hrec hwal

/-- The store an empty directory is opened to. -/
def NodeStore.fresh : NodeStore :=
  { NodeStore.new with wal := some { opened := magic, sent := [] } }

def EdgeStore.fresh : EdgeStore :=
  { EdgeStore.new with wal := some { opened := magic, sent := [] } }

theorem NodeStore.open_nil [Bincode Node] : NodeStore.open [] = .ok NodeStore.fresh := rfl

theorem EdgeStore.open_nil [Bincode Edge] : EdgeStore.open [] = .ok EdgeStore.fresh := rfl

theorem NodeStore.loggedCalls [Bincode Node] :
    LoggedCalls NodeStore.toRecordStore NodeStore.perform :=
  fun _ _ op h => NodeStore.perform_logs h op

theorem EdgeStore.loggedCalls [Bincode Edge] :
    LoggedCalls (fun s : EdgeStore => s) EdgeStore.perform :=
  fun _ _ op h => EdgeStore.perform_logs h op

/-- **Recovery is prefix-consistent with the live store**, for both stores and every sequence
of calls on a store opened on an empty directory. -/
theorem recovery_prefixConsistent [Bincode Node] [Bincode Edge] :
    (∀ (s₀ : NodeStore) (ops : List NodeOp), NodeStore.open [] = .ok s₀ →
      (∀ r ∈ (ops.foldl NodeStore.perform s₀).history, r.Fits) →
      PrefixConsistent NodeStore.toRecordStore NodeStore.perform NodeStore.open s₀ ops) ∧
    (∀ (s₀ : EdgeStore) (ops : List EdgeOp), EdgeStore.open [] = .ok s₀ →
      (∀ r ∈ (ops.foldl EdgeStore.perform s₀).history, r.Fits) →
      PrefixConsistent (fun s : EdgeStore => s) EdgeStore.perform EdgeStore.open s₀ ops) := by
  constructor
  · intro s₀ ops hopen hfit
    obtain ⟨s, hs, hrec, hwal, -, -⟩ := NodeStore.open_eq LogHolds.empty
    rw [hs, Except.ok.injEq] at hopen
    subst hopen
    refine prefixConsistent_of_logs NodeStore.loggedCalls ?_ hwal rfl hrec ops hfit
    intro rs hrs
    obtain ⟨s, hs, hrec, -⟩ := NodeStore.open_eq (LogHolds.encode hrs)
    exact ⟨s, hs, hrec⟩
  · intro s₀ ops hopen hfit
    obtain ⟨s, hs, hrec, hwal, -, -⟩ := EdgeStore.open_eq LogHolds.empty
    rw [hs, Except.ok.injEq] at hopen
    subst hopen
    refine prefixConsistent_of_logs EdgeStore.loggedCalls ?_ hwal rfl hrec ops hfit
    intro rs hrs
    obtain ⟨s, hs, hrec, -⟩ := EdgeStore.open_eq (LogHolds.encode hrs)
    exact ⟨s, hs, hrec⟩

/-- A node is inserted, updated and deleted for good; an edge is linked that is not there. -/
theorem recovery_prefixConsistent_three :
    PrefixConsistent NodeStore.toRecordStore NodeStore.perform NodeStore.open NodeStore.fresh
      [.insertNode [1] 0 1, .updateLabels 0 [2] 2, .hardDelete 0] ∧
    PrefixConsistent (fun s : EdgeStore => s) EdgeStore.perform EdgeStore.open EdgeStore.fresh
      [.insertEdge 0 1 7 0 1, .linkIntoChains 5 nullEdge nullEdge] :=
  ⟨recovery_prefixConsistent.1 NodeStore.fresh _ NodeStore.open_nil (by decide),
    recovery_prefixConsistent.2 EdgeStore.fresh _ EdgeStore.open_nil (by decide)⟩

end LightGraph
