import LightGraph.Storage.WalThread

/-!
# The log is a sequence of frames

`encodeCmd` and `replayWal` are two hand-written ends of one format. This file says which:
`walFormat`, a four-byte length and a body of at least nine bytes. Everything later proved
about a log — what a cut one replays to, what a continued one does — is `Lib.FrameFormat`'s
theory read through two facts:

* `encodeCmds_eq` — the writer's buffer is the frames of the commands' records;
* `replayLoop_eq` — the reader's loop is the frame reader with the closure folded over it.
-/

set_option autoImplicit false

namespace LightGraph

open Lib

def walFormat : FrameFormat where
  width := 4
  field n := n
  bodySize n := if n < 9 then none else some n

@[simp] theorem walFormat_width : walFormat.width = 4 := rfl

@[simp] theorem walFormat_field (n : Nat) : walFormat.field n = n := rfl

@[simp] theorem walFormat_bodySize (n : Nat) :
    walFormat.bodySize n = if n < 9 then none else some n := rfl

theorem walFormat_canonical : walFormat.Canonical := by
  intro m n h
  simp only [walFormat_bodySize] at h
  split at h
  · exact absurd h (by simp)
  · exact (Option.some.inj h).symm

theorem walFormat_width_pos : 0 < walFormat.width := by decide

/-! ## Records and their bodies -/

/-- What stands behind the length field. -/
def LogRecord.body (r : LogRecord) : Bytes := r.opcode :: leBytes 8 r.id.toNat ++ r.payload

/-- The bytes of the record in the file. -/
def LogRecord.size (r : LogRecord) : Nat := 4 + (1 + 8 + r.payload.length)

/-- The length of the record can be told by a `u32`. -/
def LogRecord.Fits (r : LogRecord) : Prop := 1 + 8 + r.payload.length < 2 ^ 32

instance (r : LogRecord) : Decidable r.Fits := inferInstanceAs (Decidable (_ < _))

def decodeBody (body : Bytes) : LogRecord where
  opcode := body.headD 0
  id := UInt64.ofNat (leNat ((body.take 9).drop 1))
  payload := body.drop 9

@[simp] theorem LogRecord.length_body (r : LogRecord) :
    r.body.length = 1 + 8 + r.payload.length := by
  simp [body, Nat.add_comm, Nat.add_left_comm]

theorem LogRecord.size_body (r : LogRecord) : walFormat.size r.body = r.size := by
  simp [FrameFormat.size, size]

theorem leNat_id (id : UInt64) : UInt64.ofNat (leNat (leBytes 8 id.toNat)) = id := by
  have h : id.toNat < 256 ^ 8 := id.toNat_lt
  rw [leNat_leBytes_of_lt h, UInt64.ofNat_toNat]

@[simp] theorem decodeBody_body (r : LogRecord) : decodeBody r.body = r := by
  have htake : (r.body.take 9).drop 1 = leBytes 8 r.id.toNat := by
    simp [LogRecord.body]
  have hdrop : r.body.drop 9 = r.payload := by
    simp [LogRecord.body]
  rw [decodeBody, htake, hdrop, leNat_id]
  rfl

/-- A body long enough to have been read is the one of the record it decodes to. -/
theorem body_decodeBody {body : Bytes} (h : 9 ≤ body.length) : (decodeBody body).body = body := by
  obtain ⟨opcode, rest, rfl⟩ : ∃ opcode rest, body = opcode :: rest :=
    List.exists_cons_of_length_pos (by omega)
  rw [List.length_cons] at h
  have hlen : (rest.take 8).length = 8 := by
    rw [List.length_take]
    omega
  have hlt : leNat (rest.take 8) < 2 ^ 64 := by
    have h := leNat_lt (rest.take 8)
    rw [hlen] at h
    exact h
  have hid : leBytes 8 (UInt64.ofNat (leNat (rest.take 8))).toNat = rest.take 8 := by
    rw [UInt64.toNat_ofNat', Nat.mod_eq_of_lt hlt]
    have h := leBytes_leNat (rest.take 8)
    rwa [hlen] at h
  simp only [decodeBody, LogRecord.body, List.headD_cons, List.take_succ_cons, List.drop_succ_cons,
    List.drop_zero, hid, List.cons_append, List.take_append_drop]

/-- The reader gets a record's size right exactly when it fits the length field: a longer one
is announced as shorter than it is. -/
theorem LogRecord.fits_body_iff (r : LogRecord) : walFormat.Fits r.body ↔ r.Fits := by
  have hpow : (256 : Nat) ^ 4 = 2 ^ 32 := by decide
  simp only [FrameFormat.Fits, walFormat_width, walFormat_field, walFormat_bodySize, hpow,
    LogRecord.length_body, Fits]
  constructor
  · intro h
    split at h
    · exact absurd h (by simp)
    · simp only [Option.some.injEq] at h
      omega
  · intro h
    rw [Nat.mod_eq_of_lt h, if_neg (by omega)]

/-! ## The writer -/

/-- The record a command leaves in the log. -/
def WalCmd.record? : WalCmd → Option LogRecord
  | .insert id record => some ⟨1, id, record⟩
  | .delete id => some ⟨2, id, []⟩
  | .flush _ => none
  | .shutdown _ => none

/-- The records of the commands, in order. -/
def records (cmds : List WalCmd) : List LogRecord := cmds.filterMap WalCmd.record?

/-- The bytes of the records, in order. -/
def encodeRecords (rs : List LogRecord) : Bytes := walFormat.encodeAll (rs.map LogRecord.body)

@[simp] theorem records_nil : records [] = [] := rfl

@[simp] theorem records_append (as bs : List WalCmd) :
    records (as ++ bs) = records as ++ records bs := by
  simp [records]

@[simp] theorem encodeRecords_nil : encodeRecords [] = [] := rfl

@[simp] theorem encodeRecords_append (rs ss : List LogRecord) :
    encodeRecords (rs ++ ss) = encodeRecords rs ++ encodeRecords ss := by
  simp [encodeRecords]

theorem encode_body (r : LogRecord) :
    walFormat.encode r.body =
      leBytes 4 (1 + 8 + r.payload.length) ++ r.opcode :: (leBytes 8 r.id.toNat ++ r.payload) := by
  rw [FrameFormat.encode, walFormat_width, walFormat_field, LogRecord.length_body]
  rfl

theorem encodeCmd_eq (buf : Bytes) (cmd : WalCmd) :
    encodeCmd buf cmd = buf ++ encodeRecords cmd.record?.toList := by
  cases cmd with
  | insert id record =>
    simp [encodeCmd, encodeInsert, WalCmd.record?, encodeRecords, encode_body]
  | delete id =>
    simp [encodeCmd, encodeDelete, WalCmd.record?, encodeRecords, encode_body]
  | flush reply => simp [encodeCmd, WalCmd.record?]
  | shutdown reply => simp [encodeCmd, WalCmd.record?]

theorem foldl_encodeCmd (buf : Bytes) (cmds : List WalCmd) :
    cmds.foldl encodeCmd buf = buf ++ encodeRecords (records cmds) := by
  induction cmds generalizing buf with
  | nil => simp
  | cons cmd cmds ih =>
    have hrec : records (cmd :: cmds) = cmd.record?.toList ++ records cmds := by
      cases h : cmd.record? <;> simp [records, h]
    rw [List.foldl_cons, ih, encodeCmd_eq, hrec, encodeRecords_append, List.append_assoc]

/-- **The writer's side.** -/
theorem encodeCmds_eq (cmds : List WalCmd) : encodeCmds cmds = encodeRecords (records cmds) := by
  rw [encodeCmds, foldl_encodeCmd, List.nil_append]

@[simp] theorem encodeCmds_nil : encodeCmds [] = [] := rfl

@[simp] theorem encodeCmds_append (as bs : List WalCmd) :
    encodeCmds (as ++ bs) = encodeCmds as ++ encodeCmds bs := by
  simp [encodeCmds_eq]

theorem encodeCmds_singleton (cmd : WalCmd) : encodeCmds [cmd] = encodeCmd [] cmd := rfl

/-- A record takes at least thirteen bytes. -/
theorem encodeRecords_eq_nil_iff {rs : List LogRecord} : encodeRecords rs = [] ↔ rs = [] := by
  constructor
  · intro h
    cases rs with
    | nil => rfl
    | cons r rs =>
      have hl := congrArg List.length h
      simp [encodeRecords, FrameFormat.size] at hl
  · rintro rfl
    rfl

/-! ## The beginning of a log -/

/-- What a file has received of a log: whole records, and of the next one a part or nothing. -/
structure Received (log : List LogRecord) (bytes : Bytes) (rs : List LogRecord) (part : Bytes) :
    Prop where
  split : bytes = encodeRecords rs ++ part
  whole : rs <+: log
  torn : part = [] ∨ ∃ r, rs ++ [r] <+: log ∧ part <+: encodeRecords [r] ∧
    part ≠ encodeRecords [r]

/-- A log is received record by record, at whatever byte the writing stands. -/
theorem exists_received {log : List LogRecord} : ∀ {bytes : Bytes}, bytes <+: encodeRecords log →
    ∃ rs part, Received log bytes rs part := by
  induction log with
  | nil =>
    intro bytes h
    rw [encodeRecords_nil, List.prefix_nil] at h
    exact ⟨[], [], h, List.prefix_rfl, Or.inl rfl⟩
  | cons r log ih =>
    intro bytes h
    have hcons : encodeRecords (r :: log) = encodeRecords [r] ++ encodeRecords log :=
      encodeRecords_append [r] log
    rw [hcons] at h
    by_cases hwhole : encodeRecords [r] <+: bytes
    · obtain ⟨rest, rfl⟩ := hwhole
      rw [List.prefix_append_right_inj] at h
      obtain ⟨rs, part, hsplit, hrs, htorn⟩ := ih h
      refine ⟨r :: rs, part, ?_, (List.prefix_cons_inj r).mpr hrs, htorn.imp_right ?_⟩
      · rw [hsplit, ← List.append_assoc]
        exact congrArg (· ++ part) (encodeRecords_append [r] rs).symm
      · rintro ⟨next, hnext, hpart⟩
        exact ⟨next, (List.prefix_cons_inj r).mpr hnext, hpart⟩
    · -- the bytes end within the first record
      have hpart : bytes <+: encodeRecords [r] :=
        (List.prefix_or_prefix_of_prefix h (List.prefix_append _ _)).resolve_right hwhole
      refine ⟨[], bytes, rfl, List.nil_prefix, Or.inr ⟨r, ?_, hpart, ?_⟩⟩
      · exact (List.prefix_cons_inj r).mpr List.nil_prefix
      · rintro rfl
        exact hwhole List.prefix_rfl

theorem Received.isPrefix {log rs : List LogRecord} {bytes part : Bytes}
    (h : Received log bytes rs part) : bytes <+: encodeRecords log := by
  rw [h.split]
  rcases h.torn with rfl | ⟨r, ⟨more, hmore⟩, hpart, -⟩
  · obtain ⟨more, hmore⟩ := h.whole
    rw [← hmore, encodeRecords_append, List.append_nil]
    exact List.prefix_append _ _
  · rw [← hmore, encodeRecords_append, encodeRecords_append, List.append_assoc,
      List.prefix_append_right_inj]
    exact hpart.trans (List.prefix_append _ _)

/-- Records whose bytes have all arrived are among the whole ones. -/
theorem Received.holds {log rs xs : List LogRecord} {bytes part : Bytes}
    (h : Received log bytes rs part) (hxs : xs <+: log) (hin : encodeRecords xs <+: bytes) :
    xs <+: rs := by
  rcases List.prefix_or_prefix_of_prefix hxs h.whole with hle | ⟨more, rfl⟩
  · exact hle
  · -- what is there of the records behind the whole ones is less than one of them
    rw [h.split, encodeRecords_append, List.prefix_append_right_inj] at hin
    cases more with
    | nil => rw [List.append_nil]
    | cons next more =>
      rcases h.torn with rfl | ⟨r, hr, hpart, hne⟩
      · exact absurd (encodeRecords_eq_nil_iff.mp (List.prefix_nil.mp hin)) (by simp)
      · have hnext : rs ++ [next] <+: log :=
          List.IsPrefix.trans ⟨more, by rw [List.append_assoc]; rfl⟩ hxs
        have hsame : rs ++ [next] = rs ++ [r] :=
          (List.prefix_of_prefix_length_le hnext hr (by simp)).eq_of_length (by simp)
        obtain rfl : next = r := by simpa using hsame
        have hwhole : encodeRecords [next] <+: part := by
          refine List.IsPrefix.trans ?_ hin
          exact ⟨encodeRecords more, (encodeRecords_append [next] more).symm⟩
        exact absurd (hpart.eq_of_length (Nat.le_antisymm hpart.length_le hwhole.length_le)) hne

/-! ## The reader -/

/-- The result `replay_wal` returns for the way reading came to its end. -/
def endingResult : Ending → Except IoError Unit
  | .clean => .ok ()
  | .short => .error .unexpectedEof
  | .refused => .error (.invalidData "record too short")

/-- Header and payload together are the body the length field announces. -/
theorem readRecord_eq {total : Nat} (h : ¬ total < 9) (file : Bytes) :
    readRecord total file =
      if file.length < total then .error .unexpectedEof
      else .ok (decodeBody (file.take total), file.drop total) := by
  by_cases hhead : 9 ≤ file.length
  · have hhd : (file.take 9).headD 0 = (file.take total).headD 0 := by
      cases file with
      | nil => exact absurd hhead (by simp)
      | cons b file =>
        cases total with
        | zero => omega
        | succ n => rfl
    have htk : (file.take total).take 9 = file.take 9 := by
      rw [List.take_take, Nat.min_eq_left (by omega)]
    simp only [readRecord, readExact, if_pos hhead, List.length_drop]
    by_cases hpay : total - 9 > 0
    · by_cases hshort : file.length < total
      · simp only [if_pos hpay, if_pos hshort, if_neg (show ¬ total - 9 ≤ file.length - 9 by omega)]
      · have hpl : (file.drop 9).take (total - 9) = (file.take total).drop 9 := by
          rw [List.drop_take]
        have hdrop : (file.drop 9).drop (total - 9) = file.drop total := by
          rw [List.drop_drop]
          congr 1
          omega
        simp only [if_pos hpay, if_neg hshort, if_pos (show total - 9 ≤ file.length - 9 by omega),
          hpl, hdrop, hhd, decodeBody, htk]
    · have hnine : total = 9 := by omega
      subst hnine
      have hnil : (file.take 9).drop 9 = [] := by simp
      simp only [if_neg hpay, if_neg (show ¬ file.length < 9 by omega), decodeBody, htk, hnil]
  · simp only [readRecord, readExact, if_neg hhead, if_pos (show file.length < total by omega)]

/-- The loop is the frame reader with the closure folded over what it reads. -/
theorem replayLoop_fuel_eq {σ : Type} (onRecord : σ → LogRecord → σ) (fuel : Nat) (file : Bytes)
    (s : σ) :
    replayLoop onRecord fuel file s =
      (((walFormat.readFuel fuel file).bodies.map decodeBody).foldl onRecord s,
        endingResult (walFormat.readFuel fuel file).ending) := by
  induction fuel generalizing file s with
  | zero => rfl
  | succ fuel ih =>
    simp only [replayLoop, FrameFormat.readFuel, readExact, walFormat_width, walFormat_bodySize]
    by_cases hlen : file.length < 4
    · simp only [hlen, show ¬ 4 ≤ file.length by omega, if_true, if_false]
      rfl
    · simp only [hlen, show 4 ≤ file.length by omega, if_true, if_false]
      by_cases htot : leNat (file.take 4) < 9
      · simp only [htot, if_true]
        rfl
      · simp only [htot, if_false, readRecord_eq htot]
        by_cases hshort : (file.drop 4).length < leNat (file.take 4)
        · simp only [hshort, if_true]
          rfl
        · simp only [hshort, if_false, ih, List.map_cons, List.foldl_cons]

/-- **The reader's side.** -/
theorem replayLoop_eq {σ : Type} (onRecord : σ → LogRecord → σ) (file : Bytes) (s : σ) :
    replayLoop onRecord file.length file s =
      (((walFormat.read file).bodies.map decodeBody).foldl onRecord s,
        endingResult (walFormat.read file).ending) :=
  replayLoop_fuel_eq onRecord file.length file s

theorem replayWal_magic {σ : Type} (onRecord : σ → LogRecord → σ) (file : Bytes) (s : σ) :
    replayWal onRecord (magic ++ file) s =
      (((walFormat.read file).bodies.map decodeBody).foldl onRecord s,
        endingResult (walFormat.read file).ending) := by
  have hlen : 4 ≤ (magic ++ file).length := by
    rw [List.length_append]
    exact Nat.le_add_right 4 _
  have htake : (magic ++ file).take 4 = magic := List.take_left' rfl
  have hdrop : (magic ++ file).drop 4 = file := List.drop_left' rfl
  rw [replayWal, readExact, if_pos hlen, htake, hdrop]
  exact replayLoop_eq onRecord file s

theorem foldl_snoc {α : Type} (xs seen : List α) :
    xs.foldl (fun seen x => seen ++ [x]) seen = seen ++ xs := by
  induction xs generalizing seen with
  | nil => simp
  | cons x xs ih => rw [List.foldl_cons, ih, List.append_assoc, List.singleton_append]

theorem replayedRecords_magic (file : Bytes) :
    replayedRecords (magic ++ file) =
      ((walFormat.read file).bodies.map decodeBody, endingResult (walFormat.read file).ending) := by
  rw [replayedRecords, replayWal_magic, foldl_snoc, List.nil_append]

/-- What any closure makes of a file is a fold over the records the file delivers. -/
theorem replayWal_eq_foldl {σ : Type} (onRecord : σ → LogRecord → σ) (file : Bytes) (s : σ) :
    replayWal onRecord file s =
      ((replayedRecords file).1.foldl onRecord s, (replayedRecords file).2) := by
  unfold replayedRecords replayWal
  cases readExact 4 file with
  | error e => rfl
  | ok p =>
    obtain ⟨header, rest⟩ := p
    dsimp only
    split
    · rfl
    · simp only [replayLoop_eq, foldl_snoc, List.nil_append]

/-- The bodies that are read are those of the records they decode to, and these fit. -/
theorem read_records (file : Bytes) :
    ((walFormat.read file).bodies.map decodeBody).map LogRecord.body
      = (walFormat.read file).bodies ∧
    ∀ r ∈ (walFormat.read file).bodies.map decodeBody, r.Fits := by
  obtain ⟨_, -, -, hfits⟩ := walFormat.read_split walFormat_width_pos walFormat_canonical file
  -- what was read is at least nine bytes long
  have hlong : ∀ b ∈ (walFormat.read file).bodies, (decodeBody b).body = b := by
    intro b hb
    have h := hfits b hb
    simp only [FrameFormat.Fits, walFormat_bodySize] at h
    split at h
    · exact absurd h (by simp)
    · rw [Option.some.injEq] at h
      exact body_decodeBody (by omega)
  constructor
  · rw [List.map_map]
    exact (List.map_congr_left hlong).trans (List.map_id' _)
  · intro r hr
    obtain ⟨b, hb, rfl⟩ := List.mem_map.mp hr
    refine (decodeBody b).fits_body_iff.mp ?_
    rw [hlong b hb]
    exact hfits b hb

/-- A file that replays without an error is the frames of what it replays, and a rest too short
for another. -/
theorem replayedRecords_magic_iff (file : Bytes) (rs : List LogRecord) :
    replayedRecords (magic ++ file) = (rs, .ok ()) ↔
      ∃ rest, file = encodeRecords rs ++ rest ∧ rest.length < 4 ∧ ∀ r ∈ rs, r.Fits := by
  have hread := walFormat.read_clean_iff walFormat_width_pos walFormat_canonical file
  rw [replayedRecords_magic, Prod.mk.injEq]
  constructor
  · rintro ⟨hbodies, hend⟩
    have hclean : (walFormat.read file).ending = .clean := by
      cases he : (walFormat.read file).ending with
      | clean => rfl
      | short => rw [he] at hend; exact absurd hend (by simp [endingResult])
      | refused => rw [he] at hend; exact absurd hend (by simp [endingResult])
    obtain ⟨rest, hfile, hshort, -⟩ :=
      (hread (walFormat.read file).bodies).mp (by rw [← hclean])
    obtain ⟨hmap, hfits⟩ := read_records file
    rw [hbodies] at hmap hfits
    exact ⟨rest, by rw [encodeRecords, hmap]; exact hfile, hshort, hfits⟩
  · rintro ⟨rest, hfile, hshort, hfits⟩
    have hclean := (hread (rs.map LogRecord.body)).mpr
      ⟨rest, hfile, hshort, by
        intro b hb
        obtain ⟨r, hr, rfl⟩ := List.mem_map.mp hb
        exact r.fits_body_iff.mpr (hfits r hr)⟩
    rw [hclean]
    exact ⟨by simp [Function.comp_def], rfl⟩

/-! ## Reading what was written -/

theorem map_decodeBody_map_body (rs : List LogRecord) :
    (rs.map LogRecord.body).map decodeBody = rs := by
  simp [Function.comp_def]

theorem forall_fits_body {rs : List LogRecord} (h : ∀ r ∈ rs, r.Fits) :
    ∀ b ∈ rs.map LogRecord.body, walFormat.Fits b := by
  intro b hb
  obtain ⟨r, hr, rfl⟩ := List.mem_map.mp hb
  exact r.fits_body_iff.mpr (h r hr)

/-- A log of records that fit replays to them. -/
theorem replayWal_encodeRecords {σ : Type} (onRecord : σ → LogRecord → σ) (s : σ)
    {rs : List LogRecord} (h : ∀ r ∈ rs, r.Fits) :
    replayWal onRecord (magic ++ encodeRecords rs) s = (rs.foldl onRecord s, .ok ()) := by
  rw [replayWal_magic, encodeRecords,
    walFormat.read_encodeAll walFormat_width_pos (forall_fits_body h)]
  simp only [map_decodeBody_map_body, endingResult]

/-- The same at the level of `open`: a log file, empty or not, replays to its records. -/
theorem replayIfAny_encodeRecords {σ : Type} (onRecord : σ → LogRecord → σ) (s : σ)
    {rs : List LogRecord} (h : ∀ r ∈ rs, r.Fits) :
    replayIfAny onRecord (magic ++ encodeRecords rs) s = .ok (rs.foldl onRecord s) := by
  rw [replayIfAny, replayWal_encodeRecords onRecord s h]
  by_cases hnil : rs = []
  · subst hnil
    rfl
  · have hpos : 0 < (encodeRecords rs).length :=
      List.length_pos_iff.mpr fun h => hnil (encodeRecords_eq_nil_iff.mp h)
    have hgt : (magic ++ encodeRecords rs).length > 4 := by
      rw [List.length_append]
      exact Nat.lt_add_of_pos_right hpos
    simp only [hgt, if_true]

/-! ## What `open` replays -/

/-- The records a store's `open` takes from a file. -/
def openedRecords (file : Bytes) : Except IoError (List LogRecord) :=
  replayIfAny (fun seen r => seen ++ [r]) file []

theorem replayIfAny_eq {σ : Type} (onRecord : σ → LogRecord → σ) (file : Bytes) (s : σ) :
    replayIfAny onRecord file s = (openedRecords file).map fun rs => rs.foldl onRecord s := by
  have hseen : replayWal (fun seen r => seen ++ [r]) file [] = replayedRecords file := rfl
  unfold openedRecords replayIfAny
  rw [hseen, replayWal_eq_foldl]
  split
  · cases replayedRecords file with
    | mk rs result => cases result <;> rfl
  · rfl

/-- A file with the magic that `open` accepts. -/
theorem openedRecords_magic_iff (file : Bytes) (rs : List LogRecord) :
    openedRecords (magic ++ file) = .ok rs ↔
      ∃ rest, file = encodeRecords rs ++ rest ∧ rest.length < 4 ∧ ∀ r ∈ rs, r.Fits := by
  have hseen : replayWal (fun seen r => seen ++ [r]) (magic ++ file) []
      = replayedRecords (magic ++ file) := rfl
  rw [← replayedRecords_magic_iff, openedRecords, replayIfAny, hseen]
  split
  · cases replayedRecords (magic ++ file) with
    | mk seen result => cases result <;> simp
  · rename_i hlen
    have hnil : file = [] := by
      rw [List.length_append] at hlen
      exact List.length_eq_zero_iff.mp (by have : magic.length = 4 := rfl; omega)
    subst hnil
    have hread : replayedRecords (magic ++ []) = ([], .ok ()) := rfl
    rw [hread]
    simp

/-! ## Log files that a run has left -/

/-- The file is what a thread has left of these records, all written out. A file no thread
has been spawned on yet is empty and holds none. -/
structure LogHolds (file : Bytes) (rs : List LogRecord) : Prop where
  content : spawnFile file = magic ++ encodeRecords rs
  fits : ∀ r ∈ rs, r.Fits

theorem LogHolds.empty : LogHolds [] [] := ⟨rfl, by simp⟩

theorem LogHolds.encode {rs : List LogRecord} (h : ∀ r ∈ rs, r.Fits) :
    LogHolds (magic ++ encodeRecords rs) rs := by
  refine ⟨?_, h⟩
  rw [spawnFile, if_pos]
  rw [List.length_append]
  exact Nat.lt_of_lt_of_le (show 0 < magic.length by decide) (Nat.le_add_right _ _)

theorem LogHolds.eq {file : Bytes} {rs : List LogRecord} (h : LogHolds file rs) :
    file = [] ∧ rs = [] ∨ file = magic ++ encodeRecords rs := by
  have hc := h.content
  unfold spawnFile at hc
  split at hc
  · exact Or.inr hc
  · rename_i hlen
    have hnil : file = [] := List.length_eq_zero_iff.mp (by omega)
    subst hnil
    refine Or.inl ⟨rfl, encodeRecords_eq_nil_iff.mp ?_⟩
    simpa using hc

/-- Opening such a file replays its records. -/
theorem LogHolds.replay {file : Bytes} {rs : List LogRecord} (h : LogHolds file rs)
    {σ : Type} (onRecord : σ → LogRecord → σ) (s : σ) :
    replayIfAny onRecord file s = .ok (rs.foldl onRecord s) := by
  rcases h.eq with ⟨rfl, rfl⟩ | rfl
  · rfl
  · exact replayIfAny_encodeRecords onRecord s h.fits

/-- A file of records has more than the magic in it exactly when it has records. -/
theorem LogHolds.length_gt_iff {file : Bytes} {rs : List LogRecord} (h : LogHolds file rs) :
    file.length > 4 ↔ rs ≠ [] := by
  rcases h.eq with ⟨rfl, rfl⟩ | rfl
  · simp
  · have hm : magic.length = 4 := rfl
    rw [List.length_append, hm, ← not_iff_not, not_not, ← encodeRecords_eq_nil_iff,
      ← List.length_eq_zero_iff]
    omega

end LightGraph
