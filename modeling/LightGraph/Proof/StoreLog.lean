import LightGraph.Proof.LogFormat
import LightGraph.Storage.StoreLog

/-!
# The store log writes its buffer more than once

`maybe_sync` writes the buffer out and clears it. `sync_now` writes it out and leaves it, so that
the next write-out, whoever makes it, appends the same bytes again. One explicit sync does no harm
as long as it is the last, and none does while the buffer is empty.

The file and the buffer are followed as two lists of records, `written` and `pending`
(`StoreLog.Holds`). Together they are never shorter than what has been appended, and one record
longer for every record that a sync has left in the buffer.
-/

set_option autoImplicit false

namespace LightGraph

open Lib

/-! ## The format -/

/-- The length field counts the payload, one byte less than the body. -/
def storeLogFormat : FrameFormat where
  width := 4
  field n := n - 1
  bodySize n := some (n + 1)

theorem storeLogFormat_width_pos : 0 < storeLogFormat.width := by decide

namespace StoreLogRecord

/-- What stands behind the length field. -/
def body (r : StoreLogRecord) : Bytes := r.opcode :: r.payload

def Fits (r : StoreLogRecord) : Prop := r.payload.length < 2 ^ 32

instance (r : StoreLogRecord) : Decidable r.Fits := inferInstanceAs (Decidable (_ < _))

theorem Fits.body {r : StoreLogRecord} (h : r.Fits) : storeLogFormat.Fits r.body := by
  show some ((r.body.length - 1) % 256 ^ 4 + 1) = some r.body.length
  have hlt : r.payload.length < 256 ^ 4 := h
  rw [StoreLogRecord.body, List.length_cons, Nat.add_sub_cancel, Nat.mod_eq_of_lt hlt]

/-- The record a body is read as. -/
def ofBody (body : Bytes) : StoreLogRecord := ⟨body.headD 0, body.drop 1⟩

/-- A record that `replay_log` reads back, and hands on: it is not a tombstone. -/
def Delivered (r : StoreLogRecord) : Prop := r.Fits ∧ r.opcode ≠ 0

instance (r : StoreLogRecord) : Decidable r.Delivered := inferInstanceAs (Decidable (_ ∧ _))

end StoreLogRecord

/-- The bytes of the records, in order. -/
def encodeStoreLogRecords (rs : List StoreLogRecord) : Bytes :=
  storeLogFormat.encodeAll (rs.map StoreLogRecord.body)

/-- A log file of these records. -/
def storeLogFile (rs : List StoreLogRecord) : Bytes := magic ++ encodeStoreLogRecords rs

@[simp] theorem encodeStoreLogRecords_append (rs ss : List StoreLogRecord) :
    encodeStoreLogRecords (rs ++ ss) = encodeStoreLogRecords rs ++ encodeStoreLogRecords ss := by
  simp [encodeStoreLogRecords]

theorem storeLogFile_append (rs ss : List StoreLogRecord) :
    storeLogFile rs ++ encodeStoreLogRecords ss = storeLogFile (rs ++ ss) := by
  rw [storeLogFile, storeLogFile, encodeStoreLogRecords_append, List.append_assoc]

/-- **The writer's side**: what `encode_record` appends is the record's frame. -/
theorem encodeRecord_eq (buf : Bytes) (opcode : UInt8) (payload : Bytes) :
    StoreLog.encodeRecord buf opcode payload
      = buf ++ encodeStoreLogRecords [⟨opcode, payload⟩] := by
  have hframe : encodeStoreLogRecords [⟨opcode, payload⟩]
      = leBytes 4 payload.length ++ [opcode] ++ payload := by
    simp [encodeStoreLogRecords, FrameFormat.encode, storeLogFormat, StoreLogRecord.body]
  rw [hframe, StoreLog.encodeRecord]
  cases payload with
  | nil => simp
  | cons b payload => simp

/-- Opcode and payload together are the body the length field announces. -/
theorem readStoreLogRecord_eq (len : Nat) (file : Bytes) :
    readStoreLogRecord len file =
      if file.length < len + 1 then .error .unexpectedEof
      else .ok (.ofBody (file.take (len + 1)), file.drop (len + 1)) := by
  cases file with
  | nil => simp [readStoreLogRecord, readExact]
  | cons opcode file =>
    have hhead : readExact 1 (opcode :: file) = .ok ([opcode], file) := by
      simp [readExact]
    rw [readStoreLogRecord, hhead]
    dsimp only
    by_cases hpay : len > 0
    · rw [if_pos hpay, readExact]
      by_cases hshort : file.length < len
      · rw [if_neg (by omega), if_pos (by simpa using hshort)]
      · rw [if_pos (by omega), if_neg (by simpa using hshort)]
        rfl
    · have hzero : len = 0 := by omega
      subst hzero
      rw [if_neg hpay, if_neg (by simp)]
      rfl

theorem replayLogLoop_fuel_eq {σ : Type} (onRecord : σ → StoreLogRecord → σ) (fuel : Nat)
    (file : Bytes) (s : σ) :
    replayLogLoop onRecord fuel file s =
      ((((storeLogFormat.readFuel fuel file).bodies.map .ofBody).filter
          (fun r => r.opcode ≠ 0)).foldl onRecord s,
        endingResult (storeLogFormat.readFuel fuel file).ending) := by
  induction fuel generalizing file s with
  | zero => rfl
  | succ fuel ih =>
    simp only [replayLogLoop, FrameFormat.readFuel, readExact, storeLogFormat]
    by_cases hlen : file.length < 4
    · simp only [hlen, show ¬ 4 ≤ file.length by omega, if_true, if_false]
      rfl
    · simp only [hlen, show 4 ≤ file.length by omega, if_true, if_false, readStoreLogRecord_eq]
      by_cases hshort : (file.drop 4).length < leNat (file.take 4) + 1
      · simp only [hshort, if_true]
        rfl
      · simp only [hshort, if_false, ih, List.map_cons, List.filter_cons, decide_eq_true_eq]
        split
        · rfl
        · rfl

/-- **The reader's side**: it reads back what is there. -/
theorem deliveredRecords_storeLogFile {rs : List StoreLogRecord} (h : ∀ r ∈ rs, r.Delivered) :
    deliveredRecords (storeLogFile rs) = (rs, .ok ()) := by
  have hread : storeLogFormat.read (encodeStoreLogRecords rs)
      = ⟨rs.map StoreLogRecord.body, .clean⟩ := by
    apply storeLogFormat.read_encodeAll storeLogFormat_width_pos
    intro b hb
    obtain ⟨r, hr, rfl⟩ := List.mem_map.mp hb
    exact (h r hr).1.body
  have hlen : 4 ≤ (storeLogFile rs).length := by
    rw [storeLogFile, List.length_append]
    exact Nat.le_add_right 4 _
  have htake : (storeLogFile rs).take 4 = magic := List.take_left' rfl
  have hdrop : (storeLogFile rs).drop 4 = encodeStoreLogRecords rs := List.drop_left' rfl
  have hbodies : (rs.map StoreLogRecord.body).map StoreLogRecord.ofBody = rs := by
    rw [List.map_map]
    exact List.map_id rs
  have hfilter : rs.filter (fun r => r.opcode ≠ 0) = rs :=
    List.filter_eq_self.mpr fun r hr => by simpa using (h r hr).2
  have hloop := replayLogLoop_fuel_eq (fun seen r => seen ++ [r])
    (encodeStoreLogRecords rs).length (encodeStoreLogRecords rs) []
  rw [show storeLogFormat.readFuel _ (encodeStoreLogRecords rs) = _ from hread, hbodies, hfilter,
    foldl_snoc, List.nil_append] at hloop
  rw [deliveredRecords, replayLog, readExact, if_pos hlen, htake, hdrop]
  exact hloop

/-! ## What the calls append, and what the log holds -/

/-- The record a call appends. -/
def StoreLogCall.record? : StoreLogCall → Option StoreLogRecord
  | .appendInsert payload _ => some ⟨1, payload⟩
  | .appendDelete idBytes _ => some ⟨2, idBytes⟩
  | .syncNow => none
  | .flush => none

/-- `flush` and `sync_now`. -/
def StoreLogCall.Syncs (c : StoreLogCall) : Prop := c = .syncNow ∨ c = .flush

/-- The records of the calls, in order. -/
def appendedRecords (calls : List StoreLogCall) : List StoreLogRecord :=
  calls.filterMap StoreLogCall.record?

theorem appendedRecords_cons (c : StoreLogCall) (calls : List StoreLogCall) :
    appendedRecords (c :: calls) = c.record?.toList ++ appendedRecords calls := by
  rw [appendedRecords, appendedRecords, List.filterMap_cons]
  cases c.record? with
  | none => rfl
  | some r => rfl

/-- No call appends a tombstone. -/
theorem appendedRecords_opcode {calls : List StoreLogCall} {r : StoreLogRecord}
    (h : r ∈ appendedRecords calls) : r.opcode ≠ 0 := by
  obtain ⟨c, -, hc⟩ := List.mem_filterMap.mp h
  cases c with
  | appendInsert payload _ =>
    obtain rfl := Option.some.inj hc
    exact (by decide : (1 : UInt8) ≠ 0)
  | appendDelete idBytes _ =>
    obtain rfl := Option.some.inj hc
    exact (by decide : (2 : UInt8) ≠ 0)
  | syncNow => exact absurd hc (by simp [StoreLogCall.record?])
  | flush => exact absurd hc (by simp [StoreLogCall.record?])

theorem appendedRecords_append (as bs : List StoreLogCall) :
    appendedRecords (as ++ bs) = appendedRecords as ++ appendedRecords bs :=
  List.filterMap_append

namespace StoreLog

/-- Right after every `flush` and every `sync_now` the file delivers `old`, which it was opened
with, and what has been appended since. -/
def Exact (l : StoreLog) (old : List StoreLogRecord) (calls : List StoreLogCall) : Prop :=
  ∀ before c after, calls = before ++ c :: after → c.Syncs →
    deliveredRecords ((l.callAll before).call c).file = (old ++ appendedRecords before, .ok ())

/-- A `flush` or `sync_now` behind which there is another finds the buffer empty. -/
def SyncedEmpty (l : StoreLog) (calls : List StoreLogCall) : Prop :=
  ∀ before c between d after, calls = before ++ c :: (between ++ d :: after) → c.Syncs →
    d.Syncs → (l.callAll before).buffer = []

/-- The records in the file, and those in the buffer. -/
structure Holds (l : StoreLog) (written pending : List StoreLogRecord) : Prop where
  file : l.file = storeLogFile written
  buffer : l.buffer = encodeStoreLogRecords pending
  delivered : ∀ r ∈ written ++ pending, r.Delivered

theorem encode_eq_nil_iff {rs : List StoreLogRecord} : encodeStoreLogRecords rs = [] ↔ rs = [] := by
  cases rs with
  | nil => exact iff_of_true rfl rfl
  | cons r rs =>
    refine iff_of_false (fun h => ?_) (by simp)
    have hlen := congrArg List.length h
    simp [encodeStoreLogRecords, FrameFormat.size, storeLogFormat] at hlen

theorem Holds.buffer_eq_nil_iff {l : StoreLog} {written pending : List StoreLogRecord}
    (h : l.Holds written pending) : l.buffer = [] ↔ pending = [] := by
  rw [h.buffer, encode_eq_nil_iff]

/-! ## One call -/

theorem flushBuffer_eq (l : StoreLog) : l.flushBuffer = { l with file := l.file ++ l.buffer } := by
  unfold flushBuffer
  split
  · rfl
  · rename_i hempty
    have hnil : l.buffer = [] := by simpa using hempty
    rw [hnil, List.append_nil, ← hnil]

/-- A sync copies what is pending into the file. -/
theorem Holds.flushBuffer {l : StoreLog} {written pending : List StoreLogRecord}
    (h : l.Holds written pending) : l.flushBuffer.Holds (written ++ pending) pending := by
  rw [flushBuffer_eq]
  refine ⟨?_, h.buffer, ?_⟩
  · show l.file ++ l.buffer = _
    rw [h.file, h.buffer, storeLogFile_append]
  · intro r hr
    rcases List.mem_append.mp hr with hr | hr
    · exact h.delivered r hr
    · exact h.delivered r (List.mem_append_right _ hr)

/-- The test of `maybe_sync` either leaves everything as it is or moves what is pending into the
file. -/
theorem Holds.maybeSync {l : StoreLog} {written pending : List StoreLogRecord}
    (h : l.Holds written pending) (timedOut : Bool) :
    (l.maybeSync timedOut).Holds written pending ∨
      (l.maybeSync timedOut).Holds (written ++ pending) [] := by
  unfold StoreLog.maybeSync
  split
  · right
    refine ⟨h.flushBuffer.file, rfl, ?_⟩
    rw [List.append_nil]
    exact h.delivered
  · left
    exact h

theorem Holds.append {l : StoreLog} {written pending : List StoreLogRecord}
    (h : l.Holds written pending) {opcode : UInt8} {payload : Bytes}
    (hr : StoreLogRecord.Delivered ⟨opcode, payload⟩) :
    ({ l with buffer := encodeRecord l.buffer opcode payload } : StoreLog).Holds written
      (pending ++ [⟨opcode, payload⟩]) := by
  refine ⟨h.file, ?_, ?_⟩
  · show encodeRecord l.buffer opcode payload = _
    rw [encodeRecord_eq, h.buffer, encodeStoreLogRecords_append]
  · intro r hmem
    rw [← List.append_assoc] at hmem
    rcases List.mem_append.mp hmem with hmem | hmem
    · exact h.delivered r hmem
    · rw [List.mem_singleton.mp hmem]
      exact hr

/-- What a call can do. -/
theorem Holds.call {l : StoreLog} {written pending : List StoreLogRecord}
    (h : l.Holds written pending) (c : StoreLogCall) (hc : ∀ r ∈ c.record?, r.Delivered) :
    (∃ r, c.record? = some r ∧
      ((l.call c).Holds written (pending ++ [r]) ∨
        (l.call c).Holds (written ++ (pending ++ [r])) [])) ∨
    (c.record? = none ∧ c.Syncs ∧ (l.call c).Holds (written ++ pending) pending) := by
  cases c with
  | appendInsert payload timedOut =>
    left
    exact ⟨_, rfl, (h.append (hc _ rfl)).maybeSync timedOut⟩
  | appendDelete idBytes timedOut =>
    left
    exact ⟨_, rfl, (h.append (hc _ rfl)).maybeSync timedOut⟩
  | syncNow =>
    right
    exact ⟨rfl, .inl rfl, h.flushBuffer⟩
  | flush =>
    right
    exact ⟨rfl, .inr rfl, h.flushBuffer⟩

theorem Holds.sync {l : StoreLog} {written pending : List StoreLogRecord}
    (h : l.Holds written pending) {c : StoreLogCall} (hc : c.Syncs) :
    (l.call c).Holds (written ++ pending) pending := by
  rcases hc with rfl | rfl
  · exact h.flushBuffer
  · exact h.flushBuffer

/-! ## Runs in which nothing is written twice -/

/-- Calls whose syncs all find an empty buffer leave every record in the file or in the buffer,
once. -/
theorem Holds.callAll (calls : List StoreLogCall) :
    ∀ {l : StoreLog} {written pending : List StoreLogRecord}, l.Holds written pending →
      (∀ r ∈ appendedRecords calls, r.Delivered) →
      (∀ before c after, calls = before ++ c :: after → c.Syncs →
        (l.callAll before).buffer = []) →
      ∃ written' pending', (l.callAll calls).Holds written' pending' ∧
        written' ++ pending' = written ++ pending ++ appendedRecords calls := by
  induction calls with
  | nil =>
    intro l written pending h _ _
    exact ⟨written, pending, h, (List.append_nil _).symm⟩
  | cons c calls ih =>
    intro l written pending h hdelivered hempty
    rw [appendedRecords_cons] at hdelivered ⊢
    have hc : ∀ r ∈ c.record?, r.Delivered := fun r hr =>
      hdelivered r (List.mem_append_left _ (by simpa using hr))
    have hcalls : ∀ r ∈ appendedRecords calls, r.Delivered := fun r hr =>
      hdelivered r (List.mem_append_right _ hr)
    have hlater : ∀ before d after, calls = before ++ d :: after → d.Syncs →
        ((l.call c).callAll before).buffer = [] :=
      fun before d after hsplit hd => hempty (c :: before) d after (by rw [hsplit]; rfl) hd
    rcases h.call c hc with ⟨r, hr, hkept | hmoved⟩ | ⟨hr, hsyncs, hsynced⟩
    · obtain ⟨written', pending', hholds, heq⟩ := ih hkept hcalls hlater
      refine ⟨written', pending', hholds, ?_⟩
      rw [heq, hr]
      simp
    · obtain ⟨written', pending', hholds, heq⟩ := ih hmoved hcalls hlater
      refine ⟨written', pending', hholds, ?_⟩
      rw [heq, hr]
      simp
    · -- the buffer is empty, so there is nothing to write twice
      have hnil : pending = [] := h.buffer_eq_nil_iff.mp (hempty [] c calls rfl hsyncs)
      subst hnil
      rw [List.append_nil] at hsynced
      obtain ⟨written', pending', hholds, heq⟩ := ih hsynced hcalls hlater
      refine ⟨written', pending', hholds, ?_⟩
      rw [heq, hr]
      simp

/-! ## Runs in which something is -/

/-- File and buffer together hold at least `n` records. -/
def HoldsAtLeast (l : StoreLog) (n : Nat) : Prop :=
  ∃ written pending, l.Holds written pending ∧ n ≤ written.length + pending.length

/-- Every call adds what it appends to the two; no call takes anything from them. -/
theorem HoldsAtLeast.callAll (calls : List StoreLogCall) :
    ∀ {l : StoreLog} {n : Nat}, l.HoldsAtLeast n →
      (∀ r ∈ appendedRecords calls, r.Delivered) →
      (l.callAll calls).HoldsAtLeast (n + (appendedRecords calls).length) := by
  induction calls with
  | nil => exact fun h _ => h
  | cons c calls ih =>
    intro l n h hdelivered
    obtain ⟨written, pending, hholds, hn⟩ := h
    rw [appendedRecords_cons] at hdelivered ⊢
    have hc : ∀ r ∈ c.record?, r.Delivered := fun r hr =>
      hdelivered r (List.mem_append_left _ (by simpa using hr))
    have hcalls : ∀ r ∈ appendedRecords calls, r.Delivered := fun r hr =>
      hdelivered r (List.mem_append_right _ hr)
    rw [List.length_append, ← Nat.add_assoc]
    refine ih ?_ hcalls
    rcases hholds.call c hc with ⟨r, hr, hkept | hmoved⟩ | ⟨hr, -, hsynced⟩
    · refine ⟨_, _, hkept, ?_⟩
      simp only [hr, Option.toList_some, List.length_append, List.length_singleton]
      omega
    · refine ⟨_, _, hmoved, ?_⟩
      simp only [hr, Option.toList_some, List.length_append, List.length_singleton,
        List.length_nil]
      omega
    · refine ⟨_, _, hsynced, ?_⟩
      simp only [hr, Option.toList_none, List.length_append, List.length_nil]
      omega

/-- A sync behind one that left records in the buffer has too many records in the file. -/
theorem not_exact_of_left {l : StoreLog} {old : List StoreLogRecord}
    {before between after : List StoreLogCall} {c d : StoreLogCall}
    (hopen : l.Holds old [])
    (hdelivered : ∀ r ∈ appendedRecords (before ++ c :: (between ++ d :: after)), r.Delivered)
    (hc : c.Syncs) (hd : d.Syncs) (hleft : (l.callAll before).buffer ≠ []) :
    ¬ l.Exact old (before ++ c :: (between ++ d :: after)) := by
  intro hexact
  rw [appendedRecords_append, appendedRecords_cons, appendedRecords_append] at hdelivered
  have hnone : c.record? = none := by
    rcases hc with rfl | rfl
    · rfl
    · rfl
  obtain ⟨written, pending, hbefore, hlen⟩ :=
    HoldsAtLeast.callAll before ⟨old, [], hopen, le_refl _⟩
      fun r hr => hdelivered r (List.mem_append_left _ hr)
  have hpos : 0 < pending.length :=
    List.length_pos_iff.mpr fun hnil => hleft (hbefore.buffer_eq_nil_iff.mpr hnil)
  -- one record more than was appended, from here on
  have hspoiled : ((l.callAll before).call c).HoldsAtLeast
      (old.length + (appendedRecords before).length + 1) := by
    refine ⟨_, _, hbefore.sync hc, ?_⟩
    rw [List.length_append]
    rw [List.length_nil] at hlen
    omega
  obtain ⟨written', pending', hbetween, hlen'⟩ := HoldsAtLeast.callAll between hspoiled
    fun r hr => hdelivered r
      (List.mem_append_right _ (List.mem_append_right _ (List.mem_append_left _ hr)))
  have hsynced := hbetween.sync hd
  have hfile := hexact (before ++ c :: between) d after (by simp) hd
  rw [callAll, List.foldl_append] at hfile
  have hread := deliveredRecords_storeLogFile hbetween.delivered
  rw [← hsynced.file] at hread
  have hsame := congrArg (fun p => p.1.length) (hread.symm.trans hfile)
  simp only [List.length_append, appendedRecords_append, appendedRecords_cons, hnone,
    Option.toList_none, List.length_nil] at hsame
  omega

end StoreLog

/-- **The store log is right as long as an explicit sync is the last one or finds nothing to
write.** `old` is what the file held when it was opened, nothing for a new one. -/
theorem store_log_exact (existing : Bytes) (batchSize : Nat) (old : List StoreLogRecord)
    (calls : List StoreLogCall)
    (hopen : (StoreLog.openWithOpts existing batchSize).file = storeLogFile old)
    (hold : ∀ r ∈ old, r.Delivered) (hfit : ∀ r ∈ appendedRecords calls, r.Fits) :
    (StoreLog.openWithOpts existing batchSize).Exact old calls ↔
      (StoreLog.openWithOpts existing batchSize).SyncedEmpty calls := by
  have hstart : (StoreLog.openWithOpts existing batchSize).Holds old [] := by
    refine ⟨hopen, ?_, by simpa using hold⟩
    unfold StoreLog.openWithOpts
    split
    · rfl
    · rfl
  -- what the calls append is not a tombstone
  have hdelivered : ∀ r ∈ appendedRecords calls, r.Delivered :=
    fun r hr => ⟨hfit r hr, appendedRecords_opcode hr⟩
  constructor
  · intro hexact before c between d after hsplit hc hd
    subst hsplit
    by_contra hleft
    exact StoreLog.not_exact_of_left hstart hdelivered hc hd hleft hexact
  · intro hempty before c after hsplit hc
    subst hsplit
    rw [appendedRecords_append] at hdelivered
    obtain ⟨written, pending, hbefore, heq⟩ := StoreLog.Holds.callAll before hstart
      (fun r hr => hdelivered r (List.mem_append_left _ hr))
      (fun b d b' hb hd => hempty b d b' c after (by rw [hb]; simp) hd hc)
    rw [(hbefore.sync hc).file, deliveredRecords_storeLogFile hbefore.delivered, heq,
      List.append_nil]

/-- The buffer goes out by itself behind the second record and behind the fourth. -/
def syncsAroundFlush : List StoreLogCall :=
  [.appendInsert [7] false, .appendDelete [8] false, .syncNow, .appendInsert [9] false,
    .appendInsert [10] false, .appendInsert [11] false, .flush]

/-- Each of the two syncs leaves every record in the file once, those the automatic flushes wrote
included. -/
theorem store_log_exact_one : (StoreLog.openWithOpts [] 10).Exact [] syncsAroundFlush := by
  refine (store_log_exact [] 10 [] syncsAroundFlush rfl (by simp) (by decide)).mpr ?_
  intro before c between d after hsplit hc hd
  have hlen : before.length < 6 := by
    have hlen := congrArg List.length hsplit
    simp only [syncsAroundFlush, List.length_append, List.length_cons, List.length_nil] at hlen
    omega
  have hcall : syncsAroundFlush[before.length]? = some c := by simp [hsplit]
  -- the first sync, the only one with another behind it
  have htwo : before.length = 2 := by
    by_contra hne
    have hrecord : ∀ n < 6, n ≠ 2 → (syncsAroundFlush[n]?.bind StoreLogCall.record?).isSome := by
      decide
    have hsome := hrecord before.length hlen hne
    rw [hcall, Option.bind_some] at hsome
    rcases hc with rfl | rfl
    · exact absurd hsome (by decide)
    · exact absurd hsome (by decide)
  have hbefore : before = syncsAroundFlush.take 2 := by
    rw [← htwo, hsplit, List.take_left]
  rw [hbefore]
  rfl

/-- With the usual batch size, a second sync writes the record a second time. -/
theorem store_log_not_exact :
    ¬ (StoreLog.open []).Exact [] [.appendInsert [7] false, .syncNow, .syncNow] := by
  intro h
  have hfile := h [.appendInsert [7] false, .syncNow] .syncNow [] rfl (.inl rfl)
  exact absurd hfile (by decide)

end LightGraph
