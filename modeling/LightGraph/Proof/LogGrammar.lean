import LightGraph.Proof.LogFormat

/-!
# The grammar of a log

What `replay_wal` accepts, as a set of byte strings: the magic, frames of four length bytes and a
body of nine bytes at least, and a rest shorter than a length field. Everything else is an error,
and before the error come the frames that were there, as many as there are: `walFormat`'s
`read_split` and `read_longest` are the two halves of that.
-/

set_option autoImplicit false

namespace LightGraph

open Lib

/-- A record as it stands in the file. -/
def LogRecord.frame (r : LogRecord) : Bytes :=
  leBytes 4 (9 + r.payload.length) ++ [r.opcode] ++ leBytes 8 r.id.toNat ++ r.payload

/-- The records' frames, one after another, each short enough for its length field, stand at the
beginning of the bytes. -/
structure FramesOf (rs : List LogRecord) (b : Bytes) : Prop where
  fits : ∀ r ∈ rs, r.Fits
  isPrefix : rs.flatMap LogRecord.frame <+: b

/-- No other sequence of frames at the beginning of the bytes is longer, or anything but a
beginning of this one. -/
structure LongestFrames (rs : List LogRecord) (b : Bytes) : Prop where
  frames : FramesOf rs b
  longest : ∀ rs', FramesOf rs' b → rs' <+: rs

/-- The command a record was encoded from. -/
def LogRecord.command (r : LogRecord) : WalCmd :=
  if r.opcode = 1 then .insert r.id r.payload else .delete r.id

/-- An insert or a delete: the commands that leave a record. -/
def WalCmd.Writes : WalCmd → Prop
  | .insert _ _ => True
  | .delete _ => True
  | .flush _ => False
  | .shutdown _ => False

theorem flatMap_frame (rs : List LogRecord) : rs.flatMap LogRecord.frame = encodeRecords rs := by
  induction rs with
  | nil => rfl
  | cons r rs ih =>
    have hframe : r.frame = walFormat.encode r.body := by
      have hlen : 1 + 8 + r.payload.length = 9 + r.payload.length := rfl
      rw [encode_body, hlen, LogRecord.frame]
      simp only [List.append_assoc, List.cons_append, List.nil_append]
    rw [List.flatMap_cons, ih, hframe]
    rfl

/-- Where no command is without a record, the records say what the commands were. -/
theorem map_command_records {cmds : List WalCmd} (h : ∀ c ∈ cmds, c.Writes) :
    (records cmds).map LogRecord.command = cmds := by
  induction cmds with
  | nil => rfl
  | cons c cmds ih =>
    have hrest := ih fun c' hc' => h c' (List.mem_cons_of_mem c hc')
    have hc := h c List.mem_cons_self
    cases c with
    | insert id record =>
      have hcons : records (.insert id record :: cmds) = ⟨1, id, record⟩ :: records cmds := rfl
      rw [hcons, List.map_cons, hrest]
      rfl
    | delete id =>
      have hcons : records (.delete id :: cmds) = ⟨2, id, []⟩ :: records cmds := rfl
      rw [hcons, List.map_cons, hrest]
      rfl
    | flush reply => exact absurd hc id
    | shutdown reply => exact absurd hc id

/-- Whatever comes behind them, the frames that are delivered are all there are. -/
theorem replayed_longest (b : Bytes) :
    LongestFrames (replayedRecords (magic ++ b)).1 b := by
  obtain ⟨hmap, hfits⟩ := read_records b
  obtain ⟨rest, hsplit, -, -⟩ :=
    walFormat.read_split walFormat_width_pos walFormat_canonical b
  rw [replayedRecords_magic]
  refine ⟨⟨hfits, ?_⟩, fun rs' hrs' => ?_⟩
  · rw [flatMap_frame, encodeRecords, hmap]
    exact ⟨rest, hsplit.symm⟩
  · have hpre := hrs'.isPrefix
    rw [flatMap_frame, encodeRecords] at hpre
    have hread := walFormat.read_longest walFormat_width_pos (forall_fits_body hrs'.fits) hpre
    have hrecs := hread.map decodeBody
    rwa [map_decodeBody_map_body] at hrecs

/-- **`replay_wal` accepts exactly its grammar**, and delivers what is in it: a file without error
is frames and at most three bytes more, an error comes behind the longest sequence of frames, and
what the encoders write is read back. -/
theorem replay_accepts_grammar :
    (∀ (b : Bytes) (rs : List LogRecord), replayedRecords (magic ++ b) = (rs, .ok ()) ↔
      ∃ tail, b = rs.flatMap LogRecord.frame ++ tail ∧ tail.length ≤ 3 ∧ ∀ r ∈ rs, r.Fits) ∧
    (∀ (b : Bytes) (rs : List LogRecord) (e : IoError),
      replayedRecords (magic ++ b) = (rs, .error e) → LongestFrames rs b) ∧
    ∀ cmds : List WalCmd, (∀ c ∈ cmds, c.Writes) → (∀ r ∈ records cmds, r.Fits) →
      ∃ rs, replayedRecords (magic ++ encodeCmds cmds) = (rs, .ok ()) ∧
        rs.map LogRecord.command = cmds ∧
        rs.flatMap LogRecord.frame = encodeCmds cmds := by
  refine ⟨fun b rs => ?_, fun b rs e h => ?_, fun cmds hwrites hfits => ?_⟩
  · rw [replayedRecords_magic_iff]
    constructor
    · rintro ⟨tail, hb, hshort, hfits⟩
      exact ⟨tail, by rw [flatMap_frame]; exact hb, Nat.le_of_lt_succ hshort, hfits⟩
    · rintro ⟨tail, hb, hshort, hfits⟩
      exact ⟨tail, by rw [← flatMap_frame]; exact hb, Nat.lt_succ_of_le hshort, hfits⟩
  · have hlongest := replayed_longest b
    rwa [h] at hlongest
  · refine ⟨records cmds, ?_, map_command_records hwrites, ?_⟩
    · exact (replayedRecords_magic_iff _ _).mpr
        ⟨[], by rw [encodeCmds_eq, List.append_nil], Nat.zero_lt_succ 3, hfits⟩
    · rw [flatMap_frame, encodeCmds_eq]

end LightGraph
