import LightGraph.Proof.Crash
import LightGraph.WalFormat

/-!
# What the transaction log's writer writes, its reader reads

When the writer puts its buffer into the file is decided record by record, by the size of the
buffer and by the clock. It makes no difference: file and buffer, one behind the other, are the
frames of the records so far (`WalWriter.line`), and behind a flush the file is.
-/

set_option autoImplicit false

namespace LightGraph

open Lib

section Sessions
variable [Bincode WalRecord]

/-- The records of the calls, in order. -/
def writtenRecords (calls : List WriterCall) : List WalRecord :=
  calls.filterMap WriterCall.record?

omit [Bincode WalRecord] in
theorem writtenRecords_cons (c : WriterCall) (calls : List WriterCall) :
    writtenRecords (c :: calls) = c.record?.toList ++ writtenRecords calls := by
  cases c <;> rfl

@[simp] theorem encodeWalRecords_nil : encodeWalRecords [] = [] := rfl

@[simp] theorem encodeWalRecords_append (rs ss : List WalRecord) :
    encodeWalRecords (rs ++ ss) = encodeWalRecords rs ++ encodeWalRecords ss := by
  simp [encodeWalRecords]

namespace WalWriter

/-- What has been written, whether it is in the file yet or not. -/
def line (w : WalWriter) : Bytes := w.file ++ w.buffer

theorem call_line (w : WalWriter) (c : WriterCall) :
    ∃ w', w.call c = some w' ∧ w'.line = w.line ++ encodeWalRecords c.record?.toList := by
  cases c with
  | write record elapsed => exact w.write_eq record elapsed
  | flush =>
    refine ⟨w.flush, rfl, ?_⟩
    show w.file ++ w.buffer ++ [] = w.line ++ []
    rfl

theorem callAll_line (calls : List WriterCall) : ∀ w : WalWriter,
    ∃ w', w.callAll calls = some w' ∧
      w'.line = w.line ++ encodeWalRecords (writtenRecords calls) := by
  induction calls with
  | nil => exact fun w => ⟨w, rfl, (List.append_nil _).symm⟩
  | cons c calls ih =>
    intro w
    obtain ⟨w₁, hcall, hline⟩ := w.call_line c
    obtain ⟨w₂, hcalls, hline'⟩ := ih w₁
    refine ⟨w₂, by rw [callAll, hcall]; exact hcalls, ?_⟩
    rw [hline', hline, writtenRecords_cons, encodeWalRecords_append, List.append_assoc]

/-- A session appends its records. -/
theorem session_eq (file : Bytes) (calls : List WriterCall) :
    session file calls = some (file ++ encodeWalRecords (writtenRecords calls)) := by
  obtain ⟨w, hcalls, hline⟩ := callAll_line calls (WalWriter.open file)
  have hopen : (WalWriter.open file).line = file := List.append_nil file
  rw [hopen] at hline
  rw [session, hcalls, Option.map_some, ← hline]
  rfl

theorem sessions_eq (calls : List (List WriterCall)) : ∀ file : Bytes,
    sessions file calls = some (file ++ encodeWalRecords (calls.flatMap writtenRecords)) := by
  induction calls with
  | nil => exact fun file => congrArg some (List.append_nil file).symm
  | cons c calls ih =>
    intro file
    rw [sessions, session_eq]
    show sessions (file ++ encodeWalRecords (writtenRecords c)) calls = _
    rw [ih, List.flatMap_cons, encodeWalRecords_append, List.append_assoc]

end WalWriter

/-- The reader takes apart what the writer has put together. -/
theorem WalReader.replay_encode {rs : List WalRecord} (h : ∀ r ∈ rs, r.Fits) :
    WalReader.replay (encodeWalRecords rs) = .ok rs := by
  refine (WalReader.replay_ok_iff _ _).mpr ⟨rs.map Bincode.bytes, ?_, ?_⟩
  · apply transactionFormat.read_encodeAll transactionFormat_width_pos
    intro b hb
    obtain ⟨r, hr, rfl⟩ := List.mem_map.mp hb
    exact r.fits_iff.mpr (h r hr)
  · rw [List.map_map]
    exact List.map_congr_left fun r _ => Bincode.deserialize_bytes r

end Sessions

/-- **The reader reads what the writer wrote**: all records of all sessions, in their order, each
once, whenever the writer may have flushed. -/
theorem sessions_read_back [Bincode WalRecord] (calls : List (List WriterCall))
    (hfit : ∀ r ∈ calls.flatMap writtenRecords, r.Fits) :
    ∃ file, WalWriter.sessions [] calls = some file ∧
      WalReader.replay file = .ok (calls.flatMap writtenRecords) :=
  ⟨_, WalWriter.sessions_eq calls [], WalReader.replay_encode hfit⟩

/-- Two sessions; in the first one the clock has the first record written at once and a flush
comes before the second. -/
theorem sessions_read_back_three :
    ∃ file, WalWriter.sessions [] [[.write (.begin 1) true, .flush, .write (.commit 1) false],
        [.write (.checkpoint 7) false]] = some file ∧
      WalReader.replay file = .ok [.begin 1, .commit 1, .checkpoint 7] :=
  sessions_read_back _ (by decide)

end LightGraph
