import LightGraph.Lib.Progress
import LightGraph.Proof.LogFormat
import LightGraph.Storage.WalFaults

/-!
# An acknowledged flush when I/O fails

What the loop has encoded is in the file, in its writer's buffer or in its own (`WalLoop.line`),
and `flush_and_sync` clears its own whatever became of it. So three things go wrong. A `write_all`
that fails loses bytes: no later flush brings them into the file, and what is written behind a
torn record leaves it torn in the middle. A `sync_all` that fails can lose bytes that were written,
with the same result. A `flush` that fails leaves bytes in the writer, and the reply is sent all
the same; the next `Flush` does not try again unless there is something new to write. Where none
of it happens, an acknowledged flush is durable.
-/

set_option autoImplicit false

namespace LightGraph

open Lib

/-- The commands a round takes, and what I/O does in it. -/
def WalRound.cmds : WalRound → List WalCmd
  | .cmd c _ _ => [c]
  | .timeout _ _ => []

def WalRound.io : WalRound → RoundOutcome
  | .cmd _ _ io => io
  | .timeout _ io => io

namespace WalLoop

/-- What the loop has encoded, as far as it was not lost. -/
def line (s : WalLoop) : Bytes := s.writer.line ++ s.buffer

/-- Every command processed before a `Flush` whose reply has been sent is in the file, behind what
was there before. -/
def Acked (base : Bytes) (s : WalLoop) : Prop :=
  ∀ before reply after, s.processed = before ++ .flush reply :: after →
    base ++ encodeCmds before <+: s.writer.file

/-- The magic, whole records of those that were in the log or came in, and of the next one a part
or nothing. -/
def WellFormed (log : List LogRecord) (s : WalLoop) : Prop :=
  ∃ bytes rs part, s.writer.file = magic ++ bytes ∧
    Received (log ++ records s.processed) bytes rs part

/-- What the test at the end of a round lets through. -/
def due (s : WalLoop) (timedOut : Bool) : Bytes :=
  if s.buffer.length ≥ s.batchSize ∨ timedOut then s.buffer else []

/-- The loop with the command of the round in its buffer. -/
def encoded (s : WalLoop) (a : WalRound) : WalLoop :=
  { s with buffer := a.cmds.foldl encodeCmd s.buffer }

/-- What the round hands to `write_all`; nothing, if it makes no call. -/
def handed (s : WalLoop) : WalRound → Bytes
  | .cmd (.flush _) _ _ => s.buffer
  | .cmd (.shutdown _) _ _ => s.buffer
  | .cmd cmd timedOut io => (s.encoded (.cmd cmd timedOut io)).due timedOut
  | .timeout timedOut _ => s.due timedOut

/-- The writer behind the round's `write_all` and `flush`. -/
def written (s : WalLoop) (a : WalRound) : BufWriter :=
  ((s.writer.writeAll (s.handed a) a.io.room a.io.direct).1.flushBuf a.io.flush).1

/-- The round's `write_all`, if it makes the call, succeeds. -/
def WriteSucceeds (s : WalLoop) (a : WalRound) : Prop :=
  s.handed a ≠ [] → (s.writer.writeAll (s.handed a) a.io.room a.io.direct).2 = true

/-- The round's `sync_all`, if it makes the call, leaves every byte that is in the file: it
succeeds, or it fails and loses nothing. -/
def SyncKeeps (s : WalLoop) (a : WalRound) : Prop :=
  s.handed a ≠ [] → (s.syncAll (s.written a).file a.io).1 = (s.written a).file

/-- Nothing is lost in the round. -/
def Keeps (s : WalLoop) (a : WalRound) : Prop := s.WriteSucceeds a ∧ s.SyncKeeps a

/-- Behind a `Flush` nothing is left in the writer: the call of `flush` succeeds, or there is no
call and nothing was left before. -/
def FlushSucceeds (s : WalLoop) : WalRound → Prop
  | .cmd (.flush _) _ io =>
    if s.buffer = [] then s.writer.buf = []
    else ((s.writer.writeAll s.buffer io.room io.direct).1.flushBuf io.flush).2 = true
  | _ => True

/-! ## One round -/

theorem syncAll_prefix (s : WalLoop) (file : Bytes) (io : RoundOutcome) :
    (s.syncAll file io).1 <+: file := by
  unfold syncAll
  split
  · split
    · exact List.prefix_rfl
    · exact List.take_prefix _ _
  · exact List.prefix_rfl

/-- What `flush_and_sync` does with a buffer that is not empty. -/
structure Flushed (s t : WalLoop) (io : RoundOutcome) : Prop where
  buffer : t.buffer = []
  kept : (s.writer.writeAll s.buffer io.room io.direct).2 = true →
    (s.syncAll ((s.writer.writeAll s.buffer io.room io.direct).1.flushBuf io.flush).1.file
      io).1 = ((s.writer.writeAll s.buffer io.room io.direct).1.flushBuf io.flush).1.file →
    t.line = s.line ∧ s.writer.file <+: t.writer.file
  lost : ¬ ((s.writer.writeAll s.buffer io.room io.direct).2 = true ∧
    (s.syncAll ((s.writer.writeAll s.buffer io.room io.direct).1.flushBuf io.flush).1.file
      io).1 = ((s.writer.writeAll s.buffer io.room io.direct).1.flushBuf io.flush).1.file) →
    t.line.length < s.line.length
  left : t.writer.buf = [] ↔
    ((s.writer.writeAll s.buffer io.room io.direct).1.flushBuf io.flush).2 = true

/-- The writer it leaves, call by call. -/
theorem flushAndSync_writer {s : WalLoop} (h : s.buffer ≠ []) (io : RoundOutcome) :
    (s.flushAndSync io).buffer = [] ∧
    ∃ writer, writer = ((s.writer.writeAll s.buffer io.room io.direct).1.flushBuf io.flush).1 ∧
      (s.flushAndSync io).writer = { writer with file := (s.syncAll writer.file io).1 } := by
  have hempty : ¬ s.buffer.isEmpty = true := by simpa using h
  unfold flushAndSync
  rw [if_neg hempty]
  exact ⟨rfl, _, rfl, rfl⟩

theorem flushAndSync_flushed {s : WalLoop} (h : s.buffer ≠ []) (io : RoundOutcome) :
    s.Flushed (s.flushAndSync io) io := by
  have hwrites := s.writer.writeAll_writes h io.room io.direct
  have hflush := (s.writer.writeAll s.buffer io.room io.direct).1.flushBuf_flushes io.flush
  obtain ⟨hbuffer, writer, hwriter, hleft⟩ := flushAndSync_writer h io
  rw [← hwriter] at hflush
  have hsync := s.syncAll_prefix writer.file io
  have hline : (s.flushAndSync io).line = (s.syncAll writer.file io).1 ++ writer.buf := by
    rw [line, BufWriter.line, hleft, hbuffer, List.append_nil]
  have hgiven : writer.file ++ writer.buf
      = (s.writer.writeAll s.buffer io.room io.direct).1.line := hflush.line
  refine ⟨hbuffer, fun hwritten hsafe => ⟨?_, ?_⟩, fun hnot => ?_, ?_⟩
  · rw [← hwriter] at hsafe
    rw [hline, hsafe, hgiven, hwrites.taken hwritten, line]
  · rw [← hwriter] at hsafe
    rw [hleft]
    show s.writer.file <+: (s.syncAll writer.file io).1
    rw [hsafe]
    exact hwrites.grows.trans hflush.grows
  · rw [← hwriter] at hnot
    rw [hline, List.length_append]
    have hlen := hsync.length_le
    have hgiven' := congrArg List.length hgiven
    rw [List.length_append] at hgiven'
    cases hwritten : (s.writer.writeAll s.buffer io.room io.direct).2 with
    | false =>
      have hlost := hwrites.lost hwritten
      rw [← line] at hlost
      omega
    | true =>
      -- the bytes were written, so it is `sync_all` that has dropped some
      have hne := fun hsafe => hnot ⟨hwritten, hsafe⟩
      have hlt := Nat.lt_of_le_of_ne hlen fun heq => hne (hsync.eq_of_length heq)
      have htaken := congrArg List.length (hwrites.taken hwritten)
      rw [← line] at htaken
      omega
  · rw [hleft]
    refine ⟨fun hnil => ?_, fun hok => hflush.done hok⟩
    by_contra hne
    exact hflush.left (Bool.eq_false_of_not_eq_true hne) hnil

/-- Without faults it appends the buffer to the file, as `WalThread.flushAndSync` does. -/
theorem flushAndSync_ok {s : WalLoop} (h : s.writer.buf = []) :
    (s.flushAndSync .ok).writer.file = s.writer.file ++ s.buffer ∧
      (s.flushAndSync .ok).writer.buf = [] ∧ (s.flushAndSync .ok).buffer = [] := by
  by_cases hnil : s.buffer = []
  · have hsame : s.flushAndSync .ok = s := by
      rw [flushAndSync, hnil]
      rfl
    rw [hsame, hnil, List.append_nil]
    exact ⟨rfl, h, rfl⟩
  · have hflushed := flushAndSync_flushed hnil .ok
    have hleft : (s.flushAndSync .ok).writer.buf = [] := by
      rw [hflushed.left]
      exact congrArg Prod.snd (BufWriter.flushBuf_none _)
    have hsync : ∀ file, (s.syncAll file .ok).1 = file := by
      intro file
      unfold syncAll
      split <;> rfl
    have hline := (hflushed.kept (BufWriter.writeAll_none _ _) (hsync _)).1
    rw [line, line, BufWriter.line, BufWriter.line, hleft, hflushed.buffer, h] at hline
    exact ⟨by simpa using hline, hleft, hflushed.buffer⟩

theorem syncRound_eq (s : WalLoop) (timedOut : Bool) (io : RoundOutcome) :
    s.syncRound timedOut io = if s.due timedOut = [] then s else s.flushAndSync io := by
  unfold syncRound due
  by_cases hbuf : s.buffer = []
  · simp [hbuf]
  · by_cases hdue : s.buffer.length ≥ s.batchSize ∨ timedOut = true
    · simp [hbuf, hdue]
    · simp [hdue]

/-- A round encodes its command and makes one call of `flush_and_sync` at most. -/
structure Rounds (s : WalLoop) (a : WalRound) (t : WalLoop) : Prop where
  processed : t.processed = s.processed ++ a.cmds
  none : s.handed a = [] → t.writer = s.writer ∧ t.buffer = (s.encoded a).buffer
  some : s.handed a ≠ [] → s.handed a = (s.encoded a).buffer ∧ (s.encoded a).Flushed t a.io

theorem due_eq {s : WalLoop} {timedOut : Bool} (h : s.due timedOut ≠ []) :
    s.due timedOut = s.buffer := by
  unfold due at h ⊢
  split
  · rfl
  · rename_i hnot
    rw [if_neg hnot] at h
    exact absurd rfl h

/-- The part of a state `flush_and_sync` touches. -/
theorem Flushed.congr {s t u : WalLoop} {io : RoundOutcome} (h : s.Flushed t io)
    (hwriter : u.writer = t.writer) (hbuffer : u.buffer = t.buffer) : s.Flushed u io := by
  have hline : u.line = t.line := by rw [line, line, hwriter, hbuffer]
  exact ⟨hbuffer.trans h.buffer, by rw [hline, hwriter]; exact h.kept,
    by rw [hline]; exact h.lost, by rw [hwriter]; exact h.left⟩

/-- The end of a round, behind what was encoded. -/
theorem rounds_of_sync {s t : WalLoop} {a : WalRound} (timedOut : Bool)
    (hhanded : s.handed a = (s.encoded a).due timedOut)
    (hprocessed : t.processed = s.processed ++ a.cmds)
    (hwriter : t.writer = ((s.encoded a).syncRound timedOut a.io).writer)
    (hbuffer : t.buffer = ((s.encoded a).syncRound timedOut a.io).buffer) : s.Rounds a t := by
  rw [syncRound_eq] at hwriter hbuffer
  refine ⟨hprocessed, fun hnil => ?_, fun hne => ?_⟩
  · rw [hhanded] at hnil
    rw [if_pos hnil] at hwriter hbuffer
    exact ⟨hwriter, hbuffer⟩
  · rw [hhanded] at hne ⊢
    rw [if_neg hne] at hwriter hbuffer
    have hbuf := due_eq hne
    refine ⟨hbuf, (flushAndSync_flushed ?_ a.io).congr hwriter hbuffer⟩
    rw [← hbuf]
    exact hne

/-- A `Flush` or a `Shutdown`. -/
theorem rounds_of_flush {s t : WalLoop} {a : WalRound} (hhanded : s.handed a = s.buffer)
    (hencoded : (s.encoded a).buffer = s.buffer)
    (hprocessed : t.processed = s.processed ++ a.cmds)
    (hwriter : t.writer = (s.flushAndSync a.io).writer)
    (hbuffer : t.buffer = (s.flushAndSync a.io).buffer) : s.Rounds a t := by
  have hsame : s.encoded a = s := by
    rw [encoded] at hencoded ⊢
    exact congrArg (fun buffer => { s with buffer }) hencoded
  refine ⟨hprocessed, fun hnil => ?_, fun hne => ?_⟩
  · rw [hhanded] at hnil
    have hempty : s.flushAndSync a.io = s := by
      rw [flushAndSync, hnil]
      rfl
    rw [hempty] at hwriter hbuffer
    exact ⟨hwriter, hbuffer.trans hencoded.symm⟩
  · rw [hhanded] at hne ⊢
    rw [hsame]
    exact ⟨rfl, (flushAndSync_flushed hne a.io).congr hwriter hbuffer⟩

theorem flushAndSync_processed (s : WalLoop) (io : RoundOutcome) :
    (s.flushAndSync io).processed = s.processed := by
  unfold flushAndSync
  split <;> rfl

theorem syncRound_processed (s : WalLoop) (timedOut : Bool) (io : RoundOutcome) :
    (s.syncRound timedOut io).processed = s.processed := by
  rw [syncRound_eq]
  split
  · rfl
  · exact flushAndSync_processed s io

theorem handle_processed (s : WalLoop) (cmd : WalCmd) (timedOut : Bool) (io : RoundOutcome) :
    (s.handle cmd timedOut io).processed = s.processed := by
  cases cmd with
  | insert id record => exact syncRound_processed _ timedOut io
  | delete id => exact syncRound_processed _ timedOut io
  | flush reply => exact flushAndSync_processed s io
  | shutdown reply => exact flushAndSync_processed s io

/-- **What a round does.** -/
theorem step_rounds {s t : WalLoop} {a : WalRound} (h : s.step a = some t) : s.Rounds a t := by
  cases a with
  | cmd cmd timedOut io =>
    rw [step] at h
    split at h
    · exact absurd h (by simp)
    · obtain rfl := Option.some.inj h
      have hproc : (s.handle cmd timedOut io).processed ++ [cmd] = s.processed ++ [cmd] := by
        rw [handle_processed]
      cases cmd with
      | insert id record =>
        exact rounds_of_sync timedOut rfl hproc rfl rfl
      | delete id =>
        exact rounds_of_sync timedOut rfl hproc rfl rfl
      | flush reply => exact rounds_of_flush rfl rfl hproc rfl rfl
      | shutdown reply => exact rounds_of_flush rfl rfl hproc rfl rfl
  | timeout timedOut io =>
    rw [step] at h
    split at h
    · exact absurd h (by simp)
    · obtain rfl := Option.some.inj h
      refine rounds_of_sync timedOut rfl ?_ rfl rfl
      rw [syncRound_processed]
      exact (List.append_nil _).symm

/-! ## Runs -/

/-- All the bytes the loop has encoded are there, in order. -/
structure Whole (base : Bytes) (s : WalLoop) : Prop where
  grown : base <+: s.writer.file
  line : s.line = base ++ encodeCmds s.processed

/-- Some of them are not. -/
def Short (base : Bytes) (s : WalLoop) : Prop :=
  s.line.length < (base ++ encodeCmds s.processed).length

variable {base : Bytes} {s t : WalLoop} {a : WalRound}

theorem encoded_line (s : WalLoop) (a : WalRound) :
    (s.encoded a).line = s.line ++ encodeCmds a.cmds := by
  rw [line, line, encoded, foldl_encodeCmd, ← encodeCmds_eq, ← List.append_assoc]

/-- A round that keeps everything has what was encoded behind what was there. -/
theorem Rounds.kept (h : s.Rounds a t) (hkeeps : s.Keeps a) :
    t.line = s.line ++ encodeCmds a.cmds ∧ s.writer.file <+: t.writer.file := by
  rw [← encoded_line]
  by_cases hnil : s.handed a = []
  · obtain ⟨hwriter, hbuffer⟩ := h.none hnil
    rw [WalLoop.line, WalLoop.line, hwriter, hbuffer]
    exact ⟨rfl, List.prefix_rfl⟩
  · obtain ⟨hbuf, hflushed⟩ := h.some hnil
    have hwritten := hkeeps.1 hnil
    have hsafe := hkeeps.2 hnil
    rw [written] at hsafe
    rw [hbuf] at hwritten hsafe
    exact hflushed.kept hwritten hsafe

/-- In any other round bytes are lost. -/
theorem Rounds.lost (h : s.Rounds a t) (hnot : ¬ s.Keeps a) :
    t.line.length < (s.line ++ encodeCmds a.cmds).length := by
  rw [← encoded_line]
  have hnil : s.handed a ≠ [] := fun hnil =>
    hnot ⟨fun hne => absurd hnil hne, fun hne => absurd hnil hne⟩
  obtain ⟨hbuf, hflushed⟩ := h.some hnil
  refine hflushed.lost fun hboth => hnot ⟨fun _ => ?_, fun _ => ?_⟩
  · rw [hbuf]
    exact hboth.1
  · rw [written, hbuf]
    exact hboth.2

theorem Rounds.encodes (h : s.Rounds a t) : base ++ encodeCmds t.processed
    = base ++ encodeCmds s.processed ++ encodeCmds a.cmds := by
  rw [h.processed, encodeCmds_append, List.append_assoc]

theorem Whole.step (h : s.Whole base) (hkeeps : s.Keeps a) (hs : s.step a = some t) :
    t.Whole base := by
  have hround := step_rounds hs
  obtain ⟨hline, hgrows⟩ := hround.kept hkeeps
  refine ⟨h.grown.trans hgrows, ?_⟩
  rw [hline, h.line, hround.encodes]

/-- What is lost once stays so. -/
theorem Short.step (h : s.Short base) (hs : s.step a = some t) : t.Short base := by
  have hround := step_rounds hs
  have hle : t.line.length ≤ (s.line ++ encodeCmds a.cmds).length := by
    by_cases hkeeps : s.Keeps a
    · exact Nat.le_of_eq (congrArg List.length (hround.kept hkeeps).1)
    · exact Nat.le_of_lt (hround.lost hkeeps)
  unfold Short at h ⊢
  rw [hround.encodes, List.length_append]
  rw [List.length_append] at hle
  exact Nat.lt_of_le_of_lt hle (Nat.add_lt_add_right h _)

theorem Whole.lost (h : s.Whole base) (hnot : ¬ s.Keeps a) (hs : s.step a = some t) :
    t.Short base := by
  have hround := step_rounds hs
  unfold Short
  rw [hround.encodes, ← h.line]
  exact hround.lost hnot

/-- Everything is there behind a run that keeps everything in every round, and behind no other. -/
theorem Whole.run (h : s.Whole base) {rounds : List WalRound}
    (hrun : run WalLoop.step s rounds = some t) :
    Guarded WalLoop.step Keeps s rounds ∧ t.Whole base ∨
      ¬ Guarded WalLoop.step Keeps s rounds ∧ t.Short base := by
  induction rounds generalizing s with
  | nil =>
    rw [run_nil, Option.some.injEq] at hrun
    exact Or.inl ⟨trivial, hrun ▸ h⟩
  | cons a rounds ih =>
    obtain ⟨u, hu, hrest⟩ := run_cons_inv hrun
    rw [guarded_cons_of_step hu]
    by_cases hkeeps : s.Keeps a
    · rcases ih (h.step hkeeps hu) hrest with ⟨hguard, ht⟩ | ⟨hguard, ht⟩
      · exact Or.inl ⟨⟨hkeeps, hguard⟩, ht⟩
      · exact Or.inr ⟨fun hboth => hguard hboth.2, ht⟩
    · refine Or.inr ⟨fun hboth => hkeeps hboth.1, ?_⟩
      exact run_invariant (fun _ _ _ h hs => Short.step h hs) (h.lost hkeeps hu) hrest

theorem spawn_whole (existing : Bytes) (batchSize : Nat) (fsyncEnabled : Bool) :
    (spawn existing batchSize fsyncEnabled).Whole (spawnFile existing) := by
  refine ⟨List.prefix_rfl, ?_⟩
  show spawnFile existing ++ [] ++ [] = spawnFile existing ++ []
  rw [List.append_nil]

/-- Behind a `Flush` the loop's own buffer is empty. -/
theorem Rounds.flush_buffer {reply : Nat} {timedOut : Bool} {io : RoundOutcome}
    (h : s.Rounds (.cmd (.flush reply) timedOut io) t) : t.buffer = [] := by
  by_cases hnil : s.buffer = []
  · exact (h.none hnil).2.trans hnil
  · exact (h.some hnil).2.buffer

/-- Behind a `Flush` the writer is empty exactly if the flush has succeeded. -/
theorem Rounds.flush_left {reply : Nat} {timedOut : Bool} {io : RoundOutcome}
    (h : s.Rounds (.cmd (.flush reply) timedOut io) t) :
    t.writer.buf = [] ↔ s.FlushSucceeds (.cmd (.flush reply) timedOut io) := by
  unfold FlushSucceeds
  dsimp only
  by_cases hnil : s.buffer = []
  · rw [if_pos hnil, (h.none hnil).1]
  · rw [if_neg hnil]
    exact (h.some hnil).2.left

theorem Rounds.flush_encodes {reply : Nat} {timedOut : Bool} {io : RoundOutcome}
    (h : s.Rounds (.cmd (.flush reply) timedOut io) t) :
    base ++ encodeCmds t.processed = base ++ encodeCmds s.processed :=
  h.encodes.trans (List.append_nil _)

theorem Rounds.flush_line {reply : Nat} {timedOut : Bool} {io : RoundOutcome}
    (h : s.Rounds (.cmd (.flush reply) timedOut io) t) :
    t.line = t.writer.file ++ t.writer.buf := by
  rw [WalLoop.line, h.flush_buffer, List.append_nil, BufWriter.line]

/-- Where nothing was lost, what came before a `Flush` is in the file exactly if the writer is left
empty. -/
theorem Whole.flush_iff (ht : t.Whole base) {reply : Nat} {timedOut : Bool} {io : RoundOutcome}
    (h : s.Rounds (.cmd (.flush reply) timedOut io) t) :
    base ++ encodeCmds s.processed <+: t.writer.file ↔
      s.FlushSucceeds (.cmd (.flush reply) timedOut io) := by
  rw [← h.flush_left, ← h.flush_encodes, ← ht.line, h.flush_line]
  constructor
  · intro hpre
    have hlen := hpre.length_le
    rw [List.length_append] at hlen
    exact List.length_eq_zero_iff.mp (by omega)
  · intro hnil
    rw [hnil, List.append_nil]

/-- Where something was, it is not. -/
theorem Short.flush (ht : t.Short base) {reply : Nat} {timedOut : Bool} {io : RoundOutcome}
    (h : s.Rounds (.cmd (.flush reply) timedOut io) t) :
    ¬ base ++ encodeCmds s.processed <+: t.writer.file := by
  intro hpre
  have hlen := hpre.length_le
  unfold Short at ht
  rw [h.flush_encodes, h.flush_line, List.length_append] at ht
  omega

/-- The acknowledged flushes stay so, and that of this round is if it has succeeded. -/
theorem Acked.step (hacked : s.Acked base) (h : s.Whole base) (hkeeps : s.Keeps a)
    (hflush : s.FlushSucceeds a) (hs : s.step a = some t) : t.Acked base := by
  have hround := step_rounds hs
  have hgrows := (hround.kept hkeeps).2
  intro before reply after hsplit
  rw [hround.processed] at hsplit
  cases a with
  | timeout timedOut io =>
    rw [show WalRound.cmds (.timeout timedOut io) = [] from rfl, List.append_nil] at hsplit
    exact (hacked before reply after hsplit).trans hgrows
  | cmd cmd timedOut io =>
    rcases List.eq_nil_or_concat after with rfl | ⟨after', last, rfl⟩
    · -- the flush of this round
      obtain ⟨rfl, hlast⟩ := List.append_inj' hsplit rfl
      obtain rfl : cmd = .flush reply := (List.cons.inj hlast).1
      exact ((h.step hkeeps hs).flush_iff hround).mpr hflush
    · rw [List.concat_eq_append, ← List.cons_append, ← List.append_assoc] at hsplit
      obtain ⟨hold, -⟩ := List.append_inj' hsplit rfl
      exact (hacked before reply after' hold).trans hgrows

variable {log : List LogRecord}

/-- A file from which nothing was lost is well formed. -/
theorem Whole.wellFormed (h : s.Whole (magic ++ encodeRecords log)) : s.WellFormed log := by
  obtain ⟨more, hmore⟩ := h.grown
  have hfile : s.writer.file = magic ++ (encodeRecords log ++ more) := by
    rw [← hmore, List.append_assoc]
  have hpre : s.writer.file <+: magic ++ encodeRecords (log ++ records s.processed) := by
    rw [encodeRecords_append, ← List.append_assoc, ← encodeCmds_eq, ← h.line, WalLoop.line,
      BufWriter.line, List.append_assoc]
    exact List.prefix_append _ _
  rw [hfile, List.prefix_append_right_inj] at hpre
  obtain ⟨rs, part, hreceived⟩ := exists_received hpre
  exact ⟨_, rs, part, hfile, hreceived⟩

/-- A well-formed file is a beginning of the log of everything processed. -/
theorem WellFormed.isPrefix (h : s.WellFormed log) :
    s.writer.file <+: magic ++ encodeRecords (log ++ records s.processed) := by
  obtain ⟨bytes, rs, part, hfile, hreceived⟩ := h
  rw [hfile, List.prefix_append_right_inj]
  exact hreceived.isPrefix

end WalLoop

/-- **An acknowledged flush is durable, and the file well formed**, in the runs in which every
`write_all` succeeds, no failing `sync_all` loses bytes and every `Flush` leaves the writer empty.
A `Flush` that leaves bytes in it is acknowledged and not durable, and so is every `Flush` from the
first round on in which something is lost. -/
theorem acked_flush_durable {file : Bytes} {log : List LogRecord} (hfile : LogHolds file log)
    (batchSize : Nat) (fsyncEnabled : Bool) (rounds : List WalRound) (s : WalLoop)
    (hrun : run WalLoop.step (WalLoop.spawn file batchSize fsyncEnabled) rounds = some s) :
    (Guarded WalLoop.step (fun s a => s.Keeps a ∧ s.FlushSucceeds a)
        (WalLoop.spawn file batchSize fsyncEnabled) rounds →
      s.Acked (spawnFile file) ∧ s.WellFormed log) ∧
    ∀ reply timedOut io t, s.step (.cmd (.flush reply) timedOut io) = some t →
      (spawnFile file ++ encodeCmds s.processed <+: t.writer.file ↔
        Guarded WalLoop.step WalLoop.Keeps (WalLoop.spawn file batchSize fsyncEnabled)
          (rounds ++ [.cmd (.flush reply) timedOut io]) ∧
        s.FlushSucceeds (.cmd (.flush reply) timedOut io)) := by
  have hstart := WalLoop.spawn_whole file batchSize fsyncEnabled
  constructor
  · intro hguard
    have hinv : s.Whole (spawnFile file) ∧ s.Acked (spawnFile file) := by
      refine guarded_invariant (I := fun s : WalLoop =>
        s.Whole (spawnFile file) ∧ s.Acked (spawnFile file)) ?_
        ⟨hstart, fun before reply after h => ?_⟩ hguard hrun
      · intro s a t ⟨h, hacked⟩ ⟨hkeeps, hflush⟩ hs
        exact ⟨h.step hkeeps hs, hacked.step h hkeeps hflush hs⟩
      · exact absurd h.symm (List.append_ne_nil_of_right_ne_nil _ (List.cons_ne_nil _ _))
    obtain ⟨h, hacked⟩ := hinv
    rw [hfile.content] at h
    exact ⟨hacked, h.wellFormed⟩
  · intro reply timedOut io t hs
    have hround := WalLoop.step_rounds hs
    have hrun' : run WalLoop.step (WalLoop.spawn file batchSize fsyncEnabled)
        (rounds ++ [.cmd (.flush reply) timedOut io]) = some t := by
      rw [run_append hrun, run_cons_of_step hs, run_nil]
    rcases hstart.run hrun' with ⟨hguard, ht⟩ | ⟨hguard, ht⟩
    · exact (ht.flush_iff hround).trans (and_iff_right hguard).symm
    · exact iff_of_false (ht.flush hround) fun hboth => hguard hboth.1

/-! ## One failing call -/

/-- The write of a record fails behind its first byte, and the flush behind it is answered. -/
def tornThenFlushed : List WalRound :=
  [.cmd (.insert 7 [1]) true { RoundOutcome.ok with direct := some 1 }, .cmd (.flush 0) false .ok]

/-- A failing `sync_all` drops what was written of the first record; the second is written behind
it. -/
def droppedThenWritten : List WalRound :=
  [.cmd (.insert 7 [1]) true { RoundOutcome.ok with sync := false, left := 9 },
    .cmd (.delete 7) true .ok]

theorem acked_flush_lost :
    ¬ (∀ (file : Bytes) (log : List LogRecord) (batchSize : Nat) (fsyncEnabled : Bool)
      (rounds : List WalRound) (s : WalLoop), LogHolds file log →
      run WalLoop.step (WalLoop.spawn file batchSize fsyncEnabled) rounds = some s →
      s.Acked (spawnFile file)) ∧
    ¬ ∀ (file : Bytes) (log : List LogRecord) (batchSize : Nat) (fsyncEnabled : Bool)
      (rounds : List WalRound) (s : WalLoop), LogHolds file log →
      run WalLoop.step (WalLoop.spawn file batchSize fsyncEnabled) rounds = some s →
      s.WellFormed log := by
  constructor
  · intro h
    have hacked := h [] [] 1 true tornThenFlushed _ .empty rfl
    exact absurd (hacked [.insert 7 [1]] 0 [] rfl) (by decide +kernel)
  · intro h
    have hformed := h [] [] 1 true droppedThenWritten _ .empty rfl
    exact absurd hformed.isPrefix (by decide +kernel)

/-- A flush fails, and the rest of the record is written with the next one; the `sync_all` of the
`Flush` fails and loses nothing. -/
def flushedTwice : List WalRound :=
  [.cmd (.insert 7 [1]) true { RoundOutcome.ok with flush := some 3 }, .cmd (.delete 7) true .ok,
    .cmd (.insert 8 [2]) false .ok,
    .cmd (.flush 0) false { RoundOutcome.ok with sync := false, left := 100 }]

theorem acked_flush_durable_four :
    ∃ s, run WalLoop.step (WalLoop.spawn [] 64 true) flushedTwice = some s ∧
      s.Acked magic ∧ s.WellFormed [] := by
  refine ⟨_, rfl, (acked_flush_durable .empty 64 true flushedTwice _ rfl).1 ?_⟩
  have hkeeps : ∀ {s : WalLoop} {a : WalRound},
      (s.writer.writeAll (s.handed a) a.io.room a.io.direct).2 = true →
      (s.syncAll (s.written a).file a.io).1 = (s.written a).file → s.Keeps a :=
    fun hwritten hsafe => ⟨fun _ => hwritten, fun _ => hsafe⟩
  refine Guarded.cons rfl ⟨hkeeps rfl rfl, trivial⟩ ?_
  refine Guarded.cons rfl ⟨hkeeps rfl rfl, trivial⟩ ?_
  refine Guarded.cons rfl ⟨hkeeps rfl rfl, trivial⟩ ?_
  exact Guarded.cons rfl ⟨hkeeps rfl rfl, rfl⟩ trivial

end LightGraph
