import LightGraph.Lib.BufWriter
import LightGraph.Storage.WalThread

/-!
# The WAL loop over a file that can fail

`wal_loop` and `flush_and_sync` once more, with what I/O can do to them: any call of `write_all`,
`flush` or `sync_all` can fail, and a call that fails leaves some of its bytes in the file or none:
of what no `sync_all` has brought to the disk, a `sync_all` that fails can drop any end. The loop
prints an error and goes on. The running flag stays up, and one step is one round of the loop;
which commands reach it, and what closing the thread does, is told in `Storage/WalThread.lean`.
-/

set_option autoImplicit false

namespace LightGraph

open Lib

/-- What I/O does while a buffer is written out (`flush_and_sync`): where the writes of `write_all`
fail, where those of `flush` do, and whether `sync_all` succeeds. -/
structure IoOutcome where
  /-- making room in the writer's buffer -/
  room : Option Nat
  /-- writing past the writer's buffer -/
  direct : Option Nat
  flush : Option Nat
  sync : Bool

/-- Nothing fails. -/
def IoOutcome.ok : IoOutcome := { room := none, direct := none, flush := none, sync := true }

/-- The same with what a `sync_all` that fails leaves of the file: this many bytes, if they are not
fewer than an earlier call has brought to the disk. -/
structure RoundOutcome extends IoOutcome where
  left : Nat

def RoundOutcome.ok : RoundOutcome := { IoOutcome.ok with left := 0 }

/-- What `flush_and_sync` prints to stderr. -/
inductive WalIoError
  /-- "WAL write error" -/
  | write
  /-- "WAL flush error" -/
  | flush
  /-- "WAL fsync error" -/
  | fsync
  deriving DecidableEq

structure WalLoop where
  writer : BufWriter
  buffer : Bytes
  batchSize : Nat
  fsyncEnabled : Bool
  /-- how much of the file the last `sync_all` that succeeded has brought to the disk -/
  synced : Nat
  errors : List WalIoError
  /-- the commands taken from the channel, oldest first -/
  processed : List WalCmd
  /-- the replies sent -/
  replies : List Nat
  exited : Bool

/-- One round of the loop. -/
inductive WalRound
  /-- `recv_timeout` returns a command; the clock decides `timedOut` -/
  | cmd (cmd : WalCmd) (timedOut : Bool) (io : RoundOutcome)
  /-- it returns none in time -/
  | timeout (timedOut : Bool) (io : RoundOutcome)

namespace WalLoop

/-- The loop as `spawn` starts it on a file; the magic, if it was missing, is written and synced. -/
def spawn (existing : Bytes) (batchSize : Nat) (fsyncEnabled : Bool) : WalLoop :=
  { writer := { file := spawnFile existing, buf := [], capacity := batchSize * 2 }
    buffer := [], batchSize, fsyncEnabled, synced := (spawnFile existing).length
    errors := [], processed := [], replies := [], exited := false }

/-- `sync_all`: the file behind it, how much of it is safe, and whether the call succeeds. It is
made only where `fsync` is set. -/
def syncAll (s : WalLoop) (file : Bytes) (io : RoundOutcome) : Bytes × Nat × Bool :=
  if s.fsyncEnabled then
    if io.sync then (file, file.length, true)
    else (file.take (max s.synced io.left), s.synced, false)
  else (file, s.synced, true)

/-- `flush_and_sync`. -/
def flushAndSync (s : WalLoop) (io : RoundOutcome) : WalLoop :=
  if s.buffer.isEmpty then s
  else
    let (writer, written) := s.writer.writeAll s.buffer io.room io.direct
    let (writer, flushed) := writer.flushBuf io.flush
    let (file, synced, safe) := s.syncAll writer.file io
    let errors := s.errors ++ (if written then [] else [.write])
      ++ (if flushed then [] else [.flush]) ++ (if safe then [] else [.fsync])
    { s with writer := { writer with file }, synced, errors, buffer := [] }

/-- The test that ends a round. -/
def syncRound (s : WalLoop) (timedOut : Bool) (io : RoundOutcome) : WalLoop :=
  let bufferFull := s.buffer.length ≥ s.batchSize
  if (bufferFull || timedOut) && !s.buffer.isEmpty then s.flushAndSync io else s

/-- The arm of a command, with the rest of the round. -/
def handle (s : WalLoop) (cmd : WalCmd) (timedOut : Bool) (io : RoundOutcome) : WalLoop :=
  match cmd with
  | .insert id record =>
    { s with buffer := encodeInsert s.buffer id record }.syncRound timedOut io
  | .delete id => { s with buffer := encodeDelete s.buffer id }.syncRound timedOut io
  | .flush reply =>
    let s := s.flushAndSync io
    { s with replies := s.replies ++ [reply] }
  | .shutdown reply =>
    let s := s.flushAndSync io
    { s with replies := s.replies ++ [reply], exited := true }

def step (s : WalLoop) : WalRound → Option WalLoop
  | .cmd cmd timedOut io =>
    if s.exited then none
    else
      let s := s.handle cmd timedOut io
      some { s with processed := s.processed ++ [cmd] }
  | .timeout timedOut io => if s.exited then none else some (s.syncRound timedOut io)

end WalLoop
end LightGraph
