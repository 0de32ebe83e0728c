import LightGraph.Lib.Machine
import LightGraph.Proof.WalWriter
import LightGraph.WalRetries

/-!
# A flush of the transaction log that is tried again

`WalWriter::flush` clears its buffer when all three of its calls have succeeded, and not before. So
what a failed flush had got into the file or into the `BufWriter` stands there, and the next flush
writes it once more behind that. Only a flush that fails before any byte of the buffer was taken
can be tried again: `write_all` fails while it makes room, or at its first byte.
-/

set_option autoImplicit false

namespace LightGraph

open Lib

namespace FallibleWriter

/-- All three calls of `flush` succeed. -/
def Succeeds (w : FallibleWriter) (io : IoOutcome) : Prop :=
  (w.writer.writeAll w.buffer io.room io.direct).2 = true ∧
    ((w.writer.writeAll w.buffer io.room io.direct).1.flushBuf io.flush).2 = true ∧ io.sync = true

/-- `write_all` fails and has taken nothing. -/
def TakesNothing (w : FallibleWriter) (io : IoOutcome) : Prop :=
  (w.writer.writeAll w.buffer io.room io.direct).2 = false ∧
    (w.writer.writeAll w.buffer io.room io.direct).1.line = w.writer.line

/-- A flush that succeeds, or fails with nothing taken, or has nothing to write. -/
def Retriable (w : FallibleWriter) (io : IoOutcome) : Prop :=
  w.buffer = [] ∨ w.Succeeds io ∨ w.TakesNothing io

/-- The writer with a record in its buffer. -/
def encoded [Bincode WalRecord] (w : FallibleWriter) (record : WalRecord) : FallibleWriter :=
  { w with buffer := w.buffer ++ encodeWalRecords [record] }

/-- The test of `write`. -/
def Due (w : FallibleWriter) (elapsed : Bool) : Prop :=
  w.buffer.length ≥ w.maxBufferSize ∨ elapsed = true

end FallibleWriter

/-- The records fit their length fields, and every flush can be tried again. -/
def WriterRun.Retriable [Bincode WalRecord] (s : WriterRun) : RetryCall → Prop
  | .write record elapsed io =>
    record.Fits ∧ ((s.w.encoded record).Due elapsed → (s.w.encoded record).Retriable io)
  | .flush io => s.w.Retriable io

/-- Behind a flush that has returned `Ok` the file replays to the accepted records. -/
def WriterRun.Durable [Bincode WalRecord] (s : WriterRun) : Prop :=
  s.flushed = true → WalReader.replay s.w.writer.file = .ok s.accepted

/-! ## One flush -/

namespace FallibleWriter

/-- What `flush` does, by the call that fails. -/
theorem flush_cases (w : FallibleWriter) (io : IoOutcome) :
    (w.Succeeds io ∧ (w.flush io).2 = true ∧ (w.flush io).1.buffer = [] ∧
      (w.flush io).1.writer
        = ((w.writer.writeAll w.buffer io.room io.direct).1.flushBuf io.flush).1) ∨
    (¬ w.Succeeds io ∧ (w.flush io).2 = false ∧ (w.flush io).1.buffer = w.buffer ∧
      (w.flush io).1.writer.line = (w.writer.writeAll w.buffer io.room io.direct).1.line) := by
  have hflush := (w.writer.writeAll w.buffer io.room io.direct).1.flushBuf_flushes io.flush
  unfold flush Succeeds
  dsimp only
  cases hwrite : (w.writer.writeAll w.buffer io.room io.direct).2 with
  | false =>
    right
    exact ⟨by simp, rfl, rfl, rfl⟩
  | true =>
    simp only [Bool.not_true, Bool.false_eq_true, if_false]
    cases hflushed : ((w.writer.writeAll w.buffer io.room io.direct).1.flushBuf io.flush).2 with
    | false =>
      right
      exact ⟨by simp, rfl, rfl, hflush.line⟩
    | true =>
      simp only [Bool.not_true, Bool.false_eq_true, if_false]
      cases hsync : io.sync with
      | false =>
        right
        exact ⟨by simp, rfl, rfl, hflush.line⟩
      | true =>
        left
        exact ⟨⟨trivial, trivial, rfl⟩, rfl, rfl, rfl⟩

/-- A flush that has succeeded. -/
theorem flush_ok {w : FallibleWriter} {io : IoOutcome} (h : (w.flush io).2 = true) :
    (w.flush io).1.buffer = [] ∧ (w.flush io).1.writer.buf = [] ∧
      (w.flush io).1.writer.file = w.writer.line ++ w.buffer := by
  rcases w.flush_cases io with ⟨⟨hwrite, hflushed, -⟩, -, hbuffer, hwriter⟩ | ⟨-, hfail, -⟩
  · have hflush := (w.writer.writeAll w.buffer io.room io.direct).1.flushBuf_flushes io.flush
    have hbuf := hflush.done hflushed
    have hline := hflush.line
    rw [BufWriter.writeAll_line hwrite, BufWriter.line, hbuf, List.append_nil] at hline
    rw [hwriter]
    exact ⟨hbuffer, hbuf, hline⟩
  · rw [hfail] at h
    exact absurd h (by simp)

/-- A flush that can be tried again and has failed has changed nothing. -/
theorem Retriable.failed {w : FallibleWriter} {io : IoOutcome} (h : w.Retriable io)
    (hfail : (w.flush io).2 = false) :
    (w.flush io).1.buffer = w.buffer ∧ (w.flush io).1.writer.line = w.writer.line := by
  rcases w.flush_cases io with ⟨-, hok, -⟩ | ⟨hnot, -, hbuffer, hline⟩
  · rw [hok] at hfail
    exact absurd hfail (by simp)
  · refine ⟨hbuffer, hline.trans ?_⟩
    rcases h with hnil | hsucceeds | ⟨-, hnothing⟩
    · rw [hnil, BufWriter.writeAll_nil]
    · exact absurd hsucceeds hnot
    · exact hnothing

theorem write_eq [Bincode WalRecord] (w : FallibleWriter) (record : WalRecord) (elapsed : Bool)
    (io : IoOutcome) :
    ((w.encoded record).Due elapsed ∧
      w.write record elapsed io = some ((w.encoded record).flush io)) ∨
    (¬ (w.encoded record).Due elapsed ∧
      w.write record elapsed io = some (w.encoded record, true)) := by
  have hbytes : w.buffer ++ leBytes 4 (Bincode.bytes record).length ++ Bincode.bytes record
      = (w.encoded record).buffer := by
    simp [encoded, encodeWalRecords, FrameFormat.encode, transactionFormat]
  unfold write
  rw [Bincode.serialize_eq]
  dsimp only
  rw [hbytes]
  have hiff : (decide ((w.encoded record).buffer.length ≥ w.maxBufferSize) || elapsed) = true ↔
      (w.encoded record).Due elapsed := by
    rw [Bool.or_eq_true, decide_eq_true_eq]
    rfl
  by_cases hdue : (w.encoded record).Due elapsed
  · exact Or.inl ⟨hdue, if_pos (hiff.mpr hdue)⟩
  · exact Or.inr ⟨hdue, if_neg fun h => hdue (hiff.mp h)⟩

end FallibleWriter

/-! ## Runs -/

section Runs
variable [Bincode WalRecord]

theorem encodeWalRecords_eq_nil {rs : List WalRecord} (h : encodeWalRecords rs = []) :
    rs = [] := by
  cases rs with
  | nil => rfl
  | cons r rs =>
    have hlen := congrArg List.length h
    simp [encodeWalRecords, FrameFormat.size, transactionFormat] at hlen

/-- What was given to the `BufWriter` and what is in the buffer are the accepted records, each
once. -/
structure FallibleWriter.Holds (w : FallibleWriter) (accepted : List WalRecord) : Prop where
  split : ∃ done pending, accepted = done ++ pending ∧
    w.writer.line = encodeWalRecords done ∧ w.buffer = encodeWalRecords pending
  fits : ∀ r ∈ accepted, r.Fits

namespace FallibleWriter

variable {w : FallibleWriter} {accepted : List WalRecord} {io : IoOutcome}

theorem Holds.encoded (h : w.Holds accepted) {record : WalRecord} (hfit : record.Fits) :
    (w.encoded record).Holds (accepted ++ [record]) := by
  obtain ⟨done, pending, hsplit, hline, hbuffer⟩ := h.split
  refine ⟨⟨done, pending ++ [record], ?_, hline, ?_⟩, fun r hr => ?_⟩
  · rw [hsplit, List.append_assoc]
  · rw [encodeWalRecords_append, ← hbuffer]
    rfl
  · rcases List.mem_append.mp hr with hr | hr
    · exact h.fits r hr
    · rw [List.mem_singleton.mp hr]
      exact hfit

/-- A flush that can be tried again: where it has succeeded the file is the accepted records. -/
theorem Holds.flush (h : w.Holds accepted) (hretry : w.Retriable io) :
    (w.flush io).1.Holds accepted ∧
      ((w.flush io).2 = true → WalReader.replay (w.flush io).1.writer.file = .ok accepted) := by
  obtain ⟨done, pending, hsplit, hline, hbuffer⟩ := h.split
  cases hok : (w.flush io).2 with
  | true =>
    obtain ⟨hbuffer', hbuf, hfile⟩ := flush_ok hok
    rw [hline, hbuffer, ← encodeWalRecords_append, ← hsplit] at hfile
    refine ⟨⟨⟨accepted, [], (List.append_nil _).symm, ?_, hbuffer'⟩, h.fits⟩, fun _ => ?_⟩
    · rw [BufWriter.line, hbuf, List.append_nil, hfile]
    · rw [hfile]
      exact WalReader.replay_encode h.fits
  | false =>
    obtain ⟨hbuffer', hline'⟩ := hretry.failed hok
    refine ⟨⟨⟨done, pending, hsplit, hline'.trans hline, hbuffer'.trans hbuffer⟩, h.fits⟩, ?_⟩
    exact fun h => absurd h (by simp)

/-- **A flush that fails behind its `write_all`** leaves the records of the buffer in the file
twice, once the next one has succeeded. -/
theorem Holds.retried (h : w.Holds accepted) {io' : IoOutcome} (hne : w.buffer ≠ [])
    (hwrite : (w.writer.writeAll w.buffer io.room io.direct).2 = true)
    (hfail : (w.flush io).2 = false) (hok : ((w.flush io).1.flush io').2 = true) :
    WalReader.replay ((w.flush io).1.flush io').1.writer.file ≠ .ok accepted := by
  obtain ⟨done, pending, hsplit, hline, hbuffer⟩ := h.split
  rcases w.flush_cases io with ⟨-, hsucceeds, -⟩ | ⟨-, -, hbuffer', hline'⟩
  · rw [hsucceeds] at hfail
    exact absurd hfail (by simp)
  · obtain ⟨-, -, hfile⟩ := flush_ok hok
    rw [hline', BufWriter.writeAll_line hwrite, hline, hbuffer', hbuffer,
      ← encodeWalRecords_append, ← hsplit, ← encodeWalRecords_append] at hfile
    have htwice : ∀ r ∈ accepted ++ pending, r.Fits := by
      intro r hr
      rcases List.mem_append.mp hr with hr | hr
      · exact h.fits r hr
      · exact h.fits r (hsplit ▸ List.mem_append_right done hr)
    rw [hfile, WalReader.replay_encode htwice]
    intro heq
    have hnil := List.append_right_eq_self.mp (Except.ok.inj heq)
    rw [hnil] at hbuffer
    exact hne hbuffer

end FallibleWriter

namespace WriterRun

variable {s t : WriterRun} {c : RetryCall}

theorem start_holds : start.w.Holds start.accepted :=
  ⟨⟨[], [], rfl, rfl, rfl⟩, fun _ hr => absurd hr List.not_mem_nil⟩

theorem step_holds (h : s.w.Holds s.accepted) (hretry : s.Retriable c) (hs : s.step c = some t) :
    t.w.Holds t.accepted ∧ t.Durable := by
  cases c with
  | flush io =>
    obtain rfl := Option.some.inj hs
    exact h.flush hretry
  | write record elapsed io =>
    obtain ⟨hfit, hclean⟩ := hretry
    have henc := h.encoded hfit
    rw [step] at hs
    rcases s.w.write_eq record elapsed io with ⟨hdue, hwrite⟩ | ⟨-, hwrite⟩
    · rw [hwrite] at hs
      obtain rfl := Option.some.inj hs
      obtain ⟨hholds, hreplay⟩ := henc.flush (hclean hdue)
      exact ⟨hholds, fun hflushed => hreplay (Bool.and_eq_true_iff.mp hflushed).1⟩
    · rw [hwrite] at hs
      obtain rfl := Option.some.inj hs
      refine ⟨henc, fun hflushed => ?_⟩
      -- the record is in the buffer
      have hempty : (s.w.encoded record).buffer = [] := by simpa using hflushed
      exact absurd (encodeWalRecords_eq_nil (List.append_eq_nil_iff.mp hempty).2) (by simp)

end WriterRun
end Runs

/-- **A failed flush can be tried again** in the runs in which every flush that fails has taken
nothing: behind a flush that succeeds the file replays to the accepted records. Behind a flush that
fails later than its `write_all`, the next one that succeeds leaves a file that does not. -/
theorem retried_flush_exact [Bincode WalRecord] (calls : List RetryCall) (s : WriterRun)
    (hrun : run WriterRun.step .start calls = some s)
    (hguard : Guarded WriterRun.step WriterRun.Retriable .start calls) :
    s.Durable ∧
    ∀ io io', s.w.buffer ≠ [] → (s.w.writer.writeAll s.w.buffer io.room io.direct).2 = true →
      (s.w.flush io).2 = false → ((s.w.flush io).1.flush io').2 = true →
      WalReader.replay ((s.w.flush io).1.flush io').1.writer.file ≠ .ok s.accepted := by
  have hinv := guarded_invariant
    (I := fun s : WriterRun => s.w.Holds s.accepted ∧ s.Durable)
    (fun _ _ _ h hretry hs => WriterRun.step_holds h.1 hretry hs)
    ⟨WriterRun.start_holds, fun h => absurd h (by simp [WriterRun.start])⟩ hguard hrun
  exact ⟨hinv.2, fun io io' hne hwrite hfail hok => hinv.1.retried hne hwrite hfail hok⟩

/-! ## One failing call -/

/-- A record is written and the flush behind it tried twice; `sync_all` fails at first. -/
def syncedTwice : List RetryCall :=
  [.write (.begin 1) false .ok, .flush { IoOutcome.ok with sync := false }, .flush .ok]

def WriterRun.afterRetry : WriterRun := (run WriterRun.step .start syncedTwice).getD .start

theorem retried_flush_duplicates :
    ¬ ∀ (calls : List RetryCall) (s : WriterRun),
      run WriterRun.step .start calls = some s → s.Durable := by
  intro h
  have hread : WalReader.replay WriterRun.afterRetry.w.writer.file = .ok [.begin 1] :=
    h syncedTwice _ rfl rfl
  have hfile : WriterRun.afterRetry.w.writer.file = encodeWalRecords [.begin 1, .begin 1] := by
    decide +kernel
  have hfits : ∀ r ∈ ([.begin 1, .begin 1] : List WalRecord), r.Fits := by decide
  have htwice := WalReader.replay_encode hfits
  rw [hfile, htwice] at hread
  exact absurd hread (by simp)

/-- A flush that has nothing to write fails, and is made up for by the next record's. -/
def emptyFlushFails : List RetryCall :=
  [.write (.begin 1) false .ok, .flush .ok, .flush { IoOutcome.ok with sync := false },
    .write (.commit 1) true .ok]

theorem retried_flush_exact_four :
    ∃ s, run WriterRun.step .start emptyFlushFails = some s ∧ s.Durable := by
  have hall : ∀ w : FallibleWriter, ((w.writer.writeAll w.buffer none none).1.flushBuf none).2
      = true := fun _ => congrArg Prod.snd (BufWriter.flushBuf_none _)
  have hsucceeds : ∀ w : FallibleWriter, w.Retriable .ok := fun w =>
    Or.inr (Or.inl ⟨BufWriter.writeAll_none _ _, hall w, rfl⟩)
  refine ⟨_, rfl, (retried_flush_exact emptyFlushFails _ rfl ?_).1⟩
  refine Guarded.cons rfl ⟨by decide, fun _ => hsucceeds _⟩ (Guarded.cons rfl (hsucceeds _) ?_)
  exact Guarded.cons rfl (Or.inl rfl) (Guarded.cons rfl ⟨by decide, fun _ => hsucceeds _⟩ trivial)

end LightGraph
