import LightGraph.Proof.WalThread
import LightGraph.Proof.Recovery
import LightGraph.Storage.PropStore
import LightGraph.Storage.Bincode
import LightGraph.Wal

/-!
# Logs that a crash has cut

A crash leaves a prefix of the file. Two things are then asked of the code: that the next
`open` reads what is whole, and that writing goes on behind it. Both readers stop quietly at a
torn length field and fail at a torn body, so the first is a matter of **at most three bytes**.
The second is worse: nobody takes the torn bytes away, and what is appended behind them is read
in the wrong frame — unless it happens to repeat itself with their period.
-/

set_option autoImplicit false

namespace LightGraph

open Lib

/-! ## Opening a cut log -/

theorem NodeStore.open_of_openedRecords [Bincode Node] {file : Bytes} {rs : List LogRecord}
    (h : openedRecords file = .ok rs) : ∃ s, NodeStore.open file = .ok s := by
  rw [NodeStore.open, RecordStore.openReplay, replayIfAny_eq, h]
  exact ⟨_, rfl⟩

theorem EdgeStore.open_of_openedRecords [Bincode Edge] {file : Bytes} {rs : List LogRecord}
    (h : openedRecords file = .ok rs) : ∃ s, EdgeStore.open file = .ok s := by
  rw [EdgeStore.open, RecordStore.openReplay, replayIfAny_eq, h]
  exact ⟨_, rfl⟩

theorem PropStore.open_of_openedRecords [Bincode (Option Value)] {file : Bytes}
    {rs : List LogRecord} (h : openedRecords file = .ok rs) :
    ∃ s, PropStore.open file = .ok s := by
  rw [PropStore.open, replayIfAny_eq, h]
  exact ⟨_, rfl⟩

/-- A cut log is recovered: it replays to `rs` without an error, and the stores open on it. -/
structure RecoversCut [Bincode Node] [Bincode Edge] [Bincode (Option Value)] (cut : Bytes)
    (rs : List LogRecord) : Prop where
  replay : replayedRecords cut = (rs, .ok ())
  nodes : ∃ s, NodeStore.open cut = .ok s
  edges : ∃ s, EdgeStore.open cut = .ok s
  props : ∃ s, PropStore.open cut = .ok s

theorem whole_records (k : Nat) (rs : List LogRecord) :
    encodeRecords (whole LogRecord.size k rs)
      = walFormat.encodeAll (whole walFormat.size k (rs.map LogRecord.body)) := by
  rw [encodeRecords, whole_map LogRecord.size walFormat.size LogRecord.body LogRecord.size_body]

theorem torn_records (k : Nat) (rs : List LogRecord) :
    torn walFormat.size k (rs.map LogRecord.body) = torn LogRecord.size k rs :=
  torn_map LogRecord.size walFormat.size LogRecord.body LogRecord.size_body k rs

/-- A cut log is its whole records and the torn bytes behind them. -/
theorem take_encodeRecords (k : Nat) (rs : List LogRecord) :
    ∃ tail : Bytes, tail.length = torn LogRecord.size k rs ∧
      (encodeRecords rs).take k = encodeRecords (whole LogRecord.size k rs) ++ tail := by
  obtain ⟨tail, hlen, htake⟩ := walFormat.take_encodeAll k (rs.map LogRecord.body)
  exact ⟨tail, by rw [hlen, torn_records], by rw [whole_records]; exact htake⟩

theorem take_magic_append (file : Bytes) (k : Nat) :
    (magic ++ file).take (4 + k) = magic ++ file.take k := by
  rw [List.take_append, List.take_of_length_le (by simp [magic])]
  congr 2
  exact Nat.add_sub_cancel_left 4 k

theorem openedRecords_of_replayed {file : Bytes} {rs : List LogRecord}
    (h : replayedRecords file = (rs, .ok ())) : ∃ rs, openedRecords file = .ok rs := by
  have hseen : replayWal (fun seen r => seen ++ [r]) file [] = replayedRecords file := rfl
  rw [openedRecords, replayIfAny, hseen, h]
  split
  · exact ⟨rs, rfl⟩
  · exact ⟨[], rfl⟩

theorem recoversCut_iff [Bincode Node] [Bincode Edge] [Bincode (Option Value)]
    (cmds : List WalCmd) (k : Nat) :
    RecoversCut ((magic ++ encodeCmds cmds).take (4 + k))
        (whole LogRecord.size k (records cmds)) ↔
      (∀ r ∈ whole LogRecord.size k (records cmds), r.Fits) ∧
        torn LogRecord.size k (records cmds) < 4 := by
  have hreplay : replayedRecords ((magic ++ encodeCmds cmds).take (4 + k))
      = (whole LogRecord.size k (records cmds), .ok ()) ↔
      (∀ r ∈ whole LogRecord.size k (records cmds), r.Fits) ∧
        torn LogRecord.size k (records cmds) < 4 := by
    obtain ⟨tail, hlen, htake⟩ := take_encodeRecords k (records cmds)
    rw [take_magic_append, encodeCmds_eq, replayedRecords_magic_iff, htake, ← hlen]
    constructor
    · rintro ⟨rest, heq, hshort, hfits⟩
      rw [List.append_cancel_left heq]
      exact ⟨hfits, hshort⟩
    · rintro ⟨hfits, hshort⟩
      exact ⟨tail, rfl, hshort, hfits⟩
  constructor
  · exact fun h => hreplay.mp h.replay
  · intro h
    have hr := hreplay.mpr h
    obtain ⟨rs, hopen⟩ := openedRecords_of_replayed hr
    exact ⟨hr, NodeStore.open_of_openedRecords hopen, EdgeStore.open_of_openedRecords hopen,
      PropStore.open_of_openedRecords hopen⟩

/-! ## The transaction log -/

section Writer

/-- The format of `WalWriter`: a length and a body of any size. -/
def transactionFormat : FrameFormat where
  width := 4
  field n := n
  bodySize n := some n

theorem transactionFormat_width_pos : 0 < transactionFormat.width := by decide

variable [Bincode WalRecord]

/-- The bytes of a record in the file. -/
def WalRecord.size (r : WalRecord) : Nat := 4 + (Bincode.bytes r).length

/-- The length of the record can be told by a `u32`. -/
def WalRecord.Fits (r : WalRecord) : Prop := (Bincode.bytes r).length < 2 ^ 32

instance (r : WalRecord) : Decidable r.Fits := inferInstanceAs (Decidable (_ < _))

def encodeWalRecords (rs : List WalRecord) : Bytes :=
  transactionFormat.encodeAll (rs.map Bincode.bytes)

theorem WalRecord.fits_iff (r : WalRecord) :
    transactionFormat.Fits (Bincode.bytes r) ↔ r.Fits := by
  have hpow : (256 : Nat) ^ 4 = 2 ^ 32 := by decide
  simp only [FrameFormat.Fits, transactionFormat, Fits, hpow, Option.some.injEq]
  constructor
  · intro h
    omega
  · exact Nat.mod_eq_of_lt

/-- Whatever the clock says, a record goes to the file or to the buffer behind it. -/
theorem WalWriter.write_eq (w : WalWriter) (r : WalRecord) (elapsed : Bool) :
    ∃ w', w.write r elapsed = some w' ∧
      w'.file ++ w'.buffer = w.file ++ w.buffer ++ encodeWalRecords [r] := by
  have henc : encodeWalRecords [r]
      = leBytes 4 (Bincode.bytes r).length ++ Bincode.bytes r := by
    simp [encodeWalRecords, FrameFormat.encode, transactionFormat]
  rw [write, Bincode.serialize_eq]
  dsimp only
  split
  · exact ⟨_, rfl, by simp [flush, henc]⟩
  · exact ⟨_, rfl, by simp [henc]⟩

theorem WalWriter.writeAll_eq (writes : List (WalRecord × Bool)) : ∀ w : WalWriter,
    ∃ w', w.writeAll writes = some w' ∧
      w'.file ++ w'.buffer = w.file ++ w.buffer ++ encodeWalRecords (writes.map Prod.fst) := by
  induction writes with
  | nil => exact fun w => ⟨w, rfl, by simp [encodeWalRecords]⟩
  | cons p writes ih =>
    intro w
    obtain ⟨r, elapsed⟩ := p
    obtain ⟨w', hw, hbytes⟩ := w.write_eq r elapsed
    obtain ⟨w'', hw', hbytes'⟩ := ih w'
    refine ⟨w'', by rw [writeAll, hw]; exact hw', ?_⟩
    rw [hbytes', hbytes]
    simp [encodeWalRecords]

omit [Bincode WalRecord] in
/-- Where there is no frame left, nothing is added to what was read. -/
theorem scan_nil_iff {f : Bytes → Option WalRecord} {seen rs : List WalRecord} :
    seen = rs ↔ ∃ bodies later, (⟨[], .clean⟩ : Scan) = ⟨bodies, .clean⟩ ∧
      bodies.map f = later.map some ∧ rs = seen ++ later := by
  constructor
  · rintro rfl
    exact ⟨[], [], rfl, rfl, (List.append_nil _).symm⟩
  · rintro ⟨bodies, later, hbodies, hmap, rfl⟩
    rw [Scan.mk.injEq] at hbodies
    rw [← hbodies.1, List.map_nil] at hmap
    rw [List.map_eq_nil_iff.mp hmap.symm, List.append_nil]

/-- The reader succeeds when the frames end cleanly and every body is a record. -/
theorem WalReader.replayLoop_ok_iff (fuel : Nat) : ∀ (file : Bytes) (seen rs : List WalRecord),
    WalReader.replayLoop fuel file seen = .ok rs ↔
      ∃ bodies later, transactionFormat.readFuel fuel file = ⟨bodies, .clean⟩ ∧
        bodies.map Bincode.deserialize = later.map some ∧ rs = seen ++ later := by
  induction fuel with
  | zero =>
    intro file seen rs
    simp only [replayLoop, FrameFormat.readFuel, Except.ok.injEq]
    exact scan_nil_iff
  | succ fuel ih =>
    intro file seen rs
    simp only [replayLoop, FrameFormat.readFuel, readExact]
    have hwidth : transactionFormat.width = 4 := rfl
    have hsize : ∀ n, transactionFormat.bodySize n = some n := fun _ => rfl
    simp only [hwidth, hsize]
    by_cases hlen : file.length < 4
    · simp only [hlen, show ¬ 4 ≤ file.length by omega, if_true, if_false, Except.ok.injEq]
      exact scan_nil_iff
    · simp only [hlen, show 4 ≤ file.length by omega, if_true, if_false]
      by_cases hshort : (file.drop 4).length < leNat (file.take 4)
      · simp only [hshort, if_true, if_neg (show ¬ leNat (file.take 4) ≤ (file.drop 4).length by
          omega)]
        simp
      · simp only [hshort, if_false, if_pos (show leNat (file.take 4) ≤ (file.drop 4).length by
          omega)]
        cases hd : (Bincode.deserialize ((file.drop 4).take (leNat (file.take 4)))
            : Option WalRecord) with
        | none =>
          simp only [Scan.mk.injEq, reduceCtorEq, false_iff, not_exists, not_and]
          rintro bodies later ⟨hbodies, -⟩ hmap
          rw [← hbodies, List.map_cons, hd] at hmap
          cases later with
          | nil => exact absurd hmap (by simp)
          | cons r later => exact absurd hmap (by simp)
        | some r =>
          simp only
          rw [ih]
          constructor
          · rintro ⟨bodies, later, hread, hmap, rfl⟩
            refine ⟨(file.drop 4).take (leNat (file.take 4)) :: bodies, r :: later, ?_, ?_, by simp⟩
            · rw [hread]
            · rw [List.map_cons, List.map_cons, hd, hmap]
          · rintro ⟨bodies, later, hread, hmap, rfl⟩
            rw [Scan.mk.injEq] at hread
            obtain ⟨hbodies, hend⟩ := hread
            rw [← hbodies, List.map_cons, hd] at hmap
            cases later with
            | nil => exact absurd hmap (by simp)
            | cons r' later =>
              rw [List.map_cons, List.cons.injEq, Option.some.injEq] at hmap
              refine ⟨_, later, by rw [← hend], hmap.2, by rw [hmap.1]; simp⟩

theorem WalReader.replay_ok_iff (file : Bytes) (rs : List WalRecord) :
    WalReader.replay file = .ok rs ↔
      ∃ bodies, transactionFormat.read file = ⟨bodies, .clean⟩ ∧
        bodies.map Bincode.deserialize = rs.map some := by
  rw [replay, replayLoop_ok_iff]
  constructor
  · rintro ⟨bodies, later, hread, hmap, rfl⟩
    exact ⟨bodies, hread, hmap⟩
  · rintro ⟨bodies, hread, hmap⟩
    exact ⟨bodies, rs, hread, hmap, rfl⟩

/-- A body that is announced shorter than it is does not deserialize. -/
theorem WalRecord.deserialize_take (r : WalRecord) {n : Nat}
    (h : n < (Bincode.bytes r).length) :
    Bincode.deserialize ((Bincode.bytes r).take n) = (none : Option WalRecord) := by
  refine Bincode.truncated r (Bincode.bytes r) (Bincode.serialize_eq r) _ (List.take_prefix n _) ?_
  intro heq
  have hlen := congrArg List.length heq
  rw [List.length_take] at hlen
  omega

theorem WalReader.replay_take_iff (rs : List WalRecord) : ∀ k : Nat,
    WalReader.replay ((encodeWalRecords rs).take k) = .ok (whole WalRecord.size k rs) ↔
      (∀ r ∈ whole WalRecord.size k rs, r.Fits) ∧ torn WalRecord.size k rs < 4 := by
  have hw := transactionFormat_width_pos
  induction rs with
  | nil =>
    intro k
    simp only [encodeWalRecords, List.map_nil, FrameFormat.encodeAll_nil, List.take_nil, whole,
      torn]
    exact ⟨fun _ => ⟨by simp, by decide⟩, fun _ => rfl⟩
  | cons r rs ih =>
    intro k
    have hsize : transactionFormat.size (Bincode.bytes r) = r.size := rfl
    rw [replay_ok_iff, encodeWalRecords, List.map_cons]
    by_cases hle : r.size ≤ k
    · have hih := ih (k - r.size)
      rw [replay_ok_iff, encodeWalRecords] at hih
      rw [FrameFormat.take_encodeAll_of_le _ (hsize ▸ hle), hsize]
      simp only [whole, torn, if_pos hle, List.forall_mem_cons, List.map_cons]
      by_cases hfit : r.Fits
      · rw [transactionFormat.read_encode_append hw (r.fits_iff.mpr hfit)]
        simp only [hfit, true_and, ← hih]
        constructor
        · rintro ⟨bodies, hread, hmap⟩
          rw [Scan.mk.injEq] at hread
          obtain ⟨hbodies, hend⟩ := hread
          rw [← hbodies, List.map_cons, List.cons.injEq] at hmap
          exact ⟨_, by rw [← hend], hmap.2⟩
        · rintro ⟨bodies, hread, hmap⟩
          exact ⟨Bincode.bytes r :: bodies, by rw [hread], by
            rw [List.map_cons, Bincode.deserialize_bytes, hmap]⟩
      · -- the length field says less than there is
        simp only [hfit, false_and, iff_false, not_exists, not_and]
        intro bodies hread hmap
        have hpow : (256 : Nat) ^ 4 = 2 ^ 32 := by decide
        have hn : (Bincode.bytes r).length % 256 ^ 4 < (Bincode.bytes r).length := by
          unfold WalRecord.Fits at hfit
          omega
        have hannounced : transactionFormat.bodySize
            (transactionFormat.field (Bincode.bytes r).length % 256 ^ transactionFormat.width)
            = some ((Bincode.bytes r).length % 256 ^ 4) := rfl
        rw [FrameFormat.read_encode_eq _ hw, hannounced] at hread
        dsimp only at hread
        rw [if_neg (by rw [List.length_append]; omega), Scan.mk.injEq] at hread
        rw [← hread.1, List.map_cons, List.cons.injEq,
          List.take_append_of_le_length (Nat.le_of_lt hn), WalRecord.deserialize_take r hn] at hmap
        exact absurd hmap.1 (by simp)
    · have hlen : ((transactionFormat.encode (Bincode.bytes r)).take k).length = k := by
        rw [List.length_take, FrameFormat.length_encode, hsize]
        omega
      rw [FrameFormat.take_encodeAll_of_lt _ (by rw [hsize]; omega)]
      simp only [whole, torn, if_neg hle, List.map_nil, List.not_mem_nil, false_implies,
        implies_true, true_and, List.map_eq_nil_iff]
      constructor
      · rintro ⟨bodies, hread, rfl⟩
        by_contra hk
        refine transactionFormat.read_ne_clean_nil hw ?_ hread
        rw [hlen]
        exact Nat.not_lt.mp hk
      · intro hk
        exact ⟨[], transactionFormat.read_of_lt_width hw (by rw [hlen]; exact hk), rfl⟩

end Writer

/-- **When a crash during append leaves a log that is recovered.** For a store's log and for
the transaction log, and every cut at or behind the header: exactly when the records in front
of the cut fit their length fields and the cut leaves less than a length field of the next. -/
theorem cut_log_recovers_iff [Bincode Node] [Bincode Edge] [Bincode (Option Value)]
    [Bincode WalRecord] :
    (∀ (cmds : List WalCmd) (k : Nat),
      RecoversCut ((magic ++ encodeCmds cmds).take (4 + k))
          (whole LogRecord.size k (records cmds)) ↔
        (∀ r ∈ whole LogRecord.size k (records cmds), r.Fits) ∧
          torn LogRecord.size k (records cmds) < 4) ∧
    ∀ (writes : List (WalRecord × Bool)) (k : Nat),
      ∃ w, (WalWriter.open []).writeAll writes = some w ∧
        (WalReader.replay (w.flush.file.take k)
            = .ok (whole WalRecord.size k (writes.map Prod.fst)) ↔
          (∀ r ∈ whole WalRecord.size k (writes.map Prod.fst), r.Fits) ∧
            torn WalRecord.size k (writes.map Prod.fst) < 4) := by
  refine ⟨recoversCut_iff, fun writes k => ?_⟩
  obtain ⟨w, hw, hbytes⟩ := WalWriter.writeAll_eq writes (WalWriter.open [])
  have hfile : w.flush.file = encodeWalRecords (writes.map Prod.fst) := by
    simpa [WalWriter.flush, WalWriter.open] using hbytes
  exact ⟨w, hw, by rw [hfile]; exact WalReader.replay_take_iff _ k⟩

/-- A delete is cut in the middle of its nine bytes. -/
theorem cut_log_unreadable :
    ¬ ∀ (cmds : List WalCmd) (k : Nat),
      RecoversCut ((magic ++ encodeCmds cmds).take (4 + k))
        (whole LogRecord.size k (records cmds)) := by
  intro h
  have hreplay := (h [.delete 7] 8).replay
  have herr : (replayedRecords ((magic ++ encodeCmds [.delete 7]).take (4 + 8))).2
      = .error .unexpectedEof := rfl
  rw [hreplay] at herr
  exact absurd herr (by simp)

/-! ## Writing on behind a cut -/

/-- What a run has written, cut to its first `k` bytes. -/
def cutLog (cmds : List WalCmd) (k : Nat) : Bytes := (magic ++ encodeCmds cmds).take k

/-- The records that lie wholly in a cut log. -/
def wholeRecords (cmds : List WalCmd) (k : Nat) : List LogRecord :=
  whole LogRecord.size (k - 4) (records cmds)

/-- The bytes of a cut log behind its last whole record. -/
def tornTail (cmds : List WalCmd) (k : Nat) : Bytes :=
  (cutLog cmds k).drop (4 + (encodeRecords (wholeRecords cmds k)).length)

/-- The torn bytes do no harm to what is written behind them: nothing is, or there are none —
the file was cut to nothing, or what is written begins, read from the torn bytes on, with
itself. -/
def TailHarmless (cmds : List WalCmd) (k : Nat) (later : List WalCmd) : Prop :=
  records later = [] ∨ k = 0 ∨
    4 ≤ k ∧ encodeCmds later <+: tornTail cmds k ++ encodeCmds later

theorem cutLog_of_le (cmds : List WalCmd) {k : Nat} (hk : 4 ≤ k) :
    cutLog cmds k = magic ++ (encodeRecords (wholeRecords cmds k) ++ tornTail cmds k) ∧
      (tornTail cmds k).length = torn LogRecord.size (k - 4) (records cmds) := by
  obtain ⟨j, rfl⟩ : ∃ j, k = 4 + j := ⟨k - 4, by omega⟩
  obtain ⟨tail, hlen, htake⟩ := take_encodeRecords j (records cmds)
  have hj : 4 + j - 4 = j := Nat.add_sub_cancel_left 4 j
  have hcut : cutLog cmds (4 + j)
      = magic ++ (encodeRecords (whole LogRecord.size j (records cmds)) ++ tail) := by
    rw [cutLog, take_magic_append, encodeCmds_eq, htake]
  have htail : tornTail cmds (4 + j) = tail := by
    rw [tornTail, hcut, wholeRecords, hj, ← List.append_assoc]
    exact List.drop_left' (by rw [List.length_append]; rfl)
  rw [htail, hcut, wholeRecords, hj]
  exact ⟨rfl, hlen⟩

/-- A cut at the end of a record leaves no torn bytes. -/
theorem tailHarmless_of_boundary {cmds later : List WalCmd} {k : Nat} (hk : 4 ≤ k)
    (h : torn LogRecord.size (k - 4) (records cmds) = 0) : TailHarmless cmds k later := by
  have hnil : tornTail cmds k = [] :=
    List.length_eq_zero_iff.mp ((cutLog_of_le cmds hk).2.trans h)
  refine Or.inr (Or.inr ⟨hk, ?_⟩)
  rw [hnil, List.nil_append]

/-- `open` accepts no other torn tail than one shorter than a length field. -/
theorem torn_lt_of_opened {cmds : List WalCmd} {k : Nat} (hk : 4 ≤ k)
    (hfit : ∀ r ∈ records cmds, r.Fits) {rs : List LogRecord}
    (hopen : openedRecords (cutLog cmds k) = .ok rs) :
    torn LogRecord.size (k - 4) (records cmds) < 4 := by
  obtain ⟨j, rfl⟩ : ∃ j, k = 4 + j := ⟨k - 4, by omega⟩
  rw [cutLog, take_magic_append, openedRecords_magic_iff, ← replayedRecords_magic_iff,
    replayedRecords_magic, encodeCmds_eq, encodeRecords,
    walFormat.read_take walFormat_width_pos j (forall_fits_body hfit), Prod.mk.injEq,
    torn_records] at hopen
  obtain ⟨-, hend⟩ := hopen
  rw [Nat.add_sub_cancel_left]
  by_contra hge
  rw [walFormat_width, if_neg hge] at hend
  exact absurd hend (by simp [endingResult])

/-- A file longer than the magic is accepted only behind the magic. -/
theorem take_of_opened {file : Bytes} {rs : List LogRecord} (hlong : file.length > 4)
    (hopen : openedRecords file = .ok rs) : file.take 4 = magic := by
  rw [openedRecords, replayIfAny, if_pos hlong, replayWal, readExact, if_pos (by omega)] at hopen
  dsimp only at hopen
  by_contra hne
  rw [if_pos hne] at hopen
  exact absurd hopen (by simp)

/-- Appending behind a file that was cut inside the magic. -/
theorem opened_partial_magic_iff {k : Nat} (hpos : 0 < k) (hk : k < 4) {later : List WalCmd} :
    openedRecords (magic.take k ++ encodeCmds later) = .ok (records later) ↔
      records later = [] := by
  have hlen : (magic.take k).length = k := by
    rw [List.length_take]
    exact Nat.min_eq_left (by simp [magic]; omega)
  constructor
  · intro h
    by_contra hne
    have hthirteen : 13 ≤ (encodeCmds later).length := by
      rw [encodeCmds_eq]
      cases hr : records later with
      | nil => exact absurd hr hne
      | cons r rs =>
        simp [encodeRecords, FrameFormat.size]
        omega
    have hlong : (magic.take k ++ encodeCmds later).length > 4 := by
      rw [List.length_append]
      omega
    have hmagic := take_of_opened hlong h
    have hsplit : magic.take k ++ encodeCmds later
        = magic ++ (magic.take k ++ encodeCmds later).drop 4 := by
      have h := List.take_append_drop 4 (magic.take k ++ encodeCmds later)
      rw [hmagic] at h
      exact h.symm
    rw [hsplit, openedRecords_magic_iff] at h
    obtain ⟨rest, hrest, -, -⟩ := h
    -- fewer bytes are left behind the magic than the records take
    have hcount := congrArg List.length hrest
    rw [List.length_drop, List.length_append, List.length_append, hlen, ← encodeCmds_eq] at hcount
    omega
  · intro h
    rw [encodeCmds_eq, h, encodeRecords_nil, List.append_nil, openedRecords, replayIfAny,
      if_neg (by rw [hlen]; omega)]

/-- Appending behind a torn tail. -/
theorem opened_behind_tail_iff {before later : List LogRecord} {tail : Bytes}
    (hshort : tail.length < 4) (hbefore : ∀ r ∈ before, r.Fits) (hlater : ∀ r ∈ later, r.Fits) :
    openedRecords (magic ++ (encodeRecords before ++ tail) ++ encodeRecords later)
        = .ok (before ++ later) ↔
      encodeRecords later <+: tail ++ encodeRecords later := by
  rw [List.append_assoc, openedRecords_magic_iff]
  constructor
  · rintro ⟨rest, heq, -, -⟩
    rw [encodeRecords_append, List.append_assoc, List.append_assoc] at heq
    exact ⟨rest, (List.append_cancel_left heq).symm⟩
  · rintro ⟨rest, hrest⟩
    refine ⟨rest, ?_, ?_, ?_⟩
    · rw [encodeRecords_append, List.append_assoc, List.append_assoc, hrest]
    · have hlen := congrArg List.length hrest
      rw [List.length_append, List.length_append] at hlen
      omega
    · intro r hr
      rcases List.mem_append.mp hr with hr | hr
      · exact hbefore r hr
      · exact hlater r hr

theorem opened_after_crash_iff (cmds later : List WalCmd) (k : Nat)
    (hfit : ∀ r ∈ records cmds, r.Fits) (hfit' : ∀ r ∈ records later, r.Fits)
    {rs : List LogRecord} (hopen : openedRecords (cutLog cmds k) = .ok rs) :
    openedRecords (spawnFile (cutLog cmds k) ++ encodeCmds later)
        = .ok (wholeRecords cmds k ++ records later) ↔
      TailHarmless cmds k later := by
  rcases Nat.lt_or_ge k 4 with hk | hk
  · have hwhole : wholeRecords cmds k = [] := by
      rw [wholeRecords, Nat.sub_eq_zero_of_le (Nat.le_of_lt hk)]
      cases records cmds with
      | nil => rfl
      | cons r rs => exact if_neg (by simp [LogRecord.size])
    have hcut : cutLog cmds k = magic.take k := by
      rw [cutLog]
      exact List.take_append_of_le_length (by simp [magic]; omega)
    rw [hwhole, hcut, List.nil_append]
    rcases Nat.eq_zero_or_pos k with rfl | hpos
    · -- nothing is left, and `spawn` begins a new log
      have hmagic : spawnFile (magic.take 0) = magic := rfl
      rw [hmagic, encodeCmds_eq, openedRecords_magic_iff]
      exact ⟨fun _ => Or.inr (Or.inl rfl), fun _ => ⟨[], by simp, by decide, hfit'⟩⟩
    · have hspawn : spawnFile (magic.take k) = magic.take k := by
        rw [spawnFile, if_pos]
        rw [List.length_take]
        exact Nat.lt_min.mpr ⟨hpos, by decide⟩
      rw [hspawn, opened_partial_magic_iff hpos hk]
      refine ⟨Or.inl, ?_⟩
      rintro (h | h | ⟨h, -⟩)
      · exact h
      · omega
      · omega
  · obtain ⟨hcut, hlen⟩ := cutLog_of_le cmds hk
    have hspawn : spawnFile (cutLog cmds k) = cutLog cmds k := by
      rw [spawnFile, if_pos]
      rw [hcut, List.length_append]
      exact Nat.lt_of_lt_of_le (show 0 < magic.length by decide) (Nat.le_add_right _ _)
    have hshort : (tornTail cmds k).length < 4 := by
      rw [hlen]
      exact torn_lt_of_opened hk hfit hopen
    have hbefore : ∀ r ∈ wholeRecords cmds k, r.Fits := fun r hr =>
      hfit r ((whole_isPrefix LogRecord.size (k - 4) (records cmds)).subset hr)
    rw [hspawn, hcut, encodeCmds_eq, opened_behind_tail_iff hshort hbefore hfit', TailHarmless,
      encodeCmds_eq]
    constructor
    · exact fun h => Or.inr (Or.inr ⟨hk, h⟩)
    · rintro (h | h | ⟨-, h⟩)
      · rw [h]
        exact List.nil_prefix
      · omega
      · exact h

/-- **When writing goes on correctly behind a crash.** A log is cut anywhere and accepted by
`open`; a WAL thread is spawned on it and takes any commands, all written out in the end. The
next `open` replays the whole records of the cut log and then all the later ones exactly when
the torn tail is harmless to them. -/
theorem append_after_crash_iff (cmds : List WalCmd) (k : Nat) (rs : List LogRecord)
    (batchSize channelCap : Nat) (acts : List WalAct) (s : WalThread)
    (hfit : ∀ r ∈ records cmds, r.Fits)
    (hopen : openedRecords (cutLog cmds k) = .ok rs)
    (hrun : run WalThread.step (WalThread.spawn (cutLog cmds k) batchSize channelCap) acts
      = some s)
    (hlive : s.closing = .live) (hbuf : s.buffer = []) (hflight : records s.inFlight = [])
    (hfit' : ∀ r ∈ records s.history, r.Fits) :
    openedRecords s.file = .ok (wholeRecords cmds k ++ records s.history) ↔
      TailHarmless cmds k s.history := by
  rw [(WalThread.Live.of_run hrun hlive).drained hbuf hflight]
  exact opened_after_crash_iff cmds s.history k hfit hfit' hopen

/-- Two bytes of a torn delete are left, and a delete and a flush follow. -/
theorem append_after_torn_tail_lost :
    ¬ ∀ (cmds : List WalCmd) (k : Nat) (rs : List LogRecord) (batchSize channelCap : Nat)
      (acts : List WalAct) (s : WalThread),
      (∀ r ∈ records cmds, r.Fits) → openedRecords (cutLog cmds k) = .ok rs →
      run WalThread.step (WalThread.spawn (cutLog cmds k) batchSize channelCap) acts = some s →
      s.closing = .live → s.buffer = [] → records s.inFlight = [] →
      (∀ r ∈ records s.history, r.Fits) →
      openedRecords s.file = .ok (wholeRecords cmds k ++ records s.history) := by
  intro h
  have hrun := h [.delete 7] 6 [] 64 8 [.sendDelete 9, .flushSend, .recvCmd, .process,
    .sync false, .recvCmd, .process] _ (by decide) rfl rfl rfl rfl rfl (by decide)
  have hopen : openedRecords (cutLog [.delete 7] 6) = .ok [] := rfl
  have hiff := (opened_after_crash_iff [.delete 7] [.delete 9] 6
    (by decide) (by decide) hopen).mp hrun
  rcases hiff with hnil | hzero | ⟨-, hpre⟩
  · exact absurd hnil (by decide)
  · exact absurd hzero (by decide)
  · exact absurd hpre (by decide)

/-- The log is cut behind its first delete, and a delete and a flush follow. -/
theorem append_after_crash_iff_boundary :
    ∃ s, run WalThread.step (WalThread.spawn (cutLog [.delete 7, .delete 8] 17) 64 8)
        [.sendDelete 9, .flushSend, .recvCmd, .process, .sync false, .recvCmd, .process]
        = some s ∧
      (openedRecords s.file = .ok (wholeRecords [.delete 7, .delete 8] 17 ++ records s.history) ↔
        TailHarmless [.delete 7, .delete 8] 17 s.history) :=
  ⟨_, rfl, append_after_crash_iff [.delete 7, .delete 8] 17 [⟨2, 7, []⟩] 64 8 [.sendDelete 9,
    .flushSend, .recvCmd, .process, .sync false, .recvCmd, .process] _ (by decide) rfl rfl rfl rfl
    rfl (by decide)⟩

end LightGraph
