import LightGraph.Storage.WalFaults
import LightGraph.Wal

/-!
# The transaction log's writer over a file that can fail

`WalWriter` once more, with the `BufWriter` it has around its file and with what I/O can do to the
three calls of `flush`. A call that fails ends `flush` with an error; what it had put into the file
or into the `BufWriter` by then stays there, and so does the writer's own buffer.

The caller of this file does as it is told: where a call has returned an error it goes on calling,
until a flush has succeeded.
-/

set_option autoImplicit false

namespace LightGraph

open Lib

structure FallibleWriter where
  writer : BufWriter
  buffer : Bytes
  maxBufferSize : Nat

/-- The capacity is that of `BufWriter::new`. -/
def FallibleWriter.open (existing : Bytes) : FallibleWriter :=
  { writer := { file := existing, buf := [], capacity := 8192 }, buffer := [],
    maxBufferSize := 65536 }

namespace FallibleWriter

/-- `flush`, and whether it returns `Ok`. -/
def flush (w : FallibleWriter) (io : IoOutcome) : FallibleWriter × Bool :=
  let (writer, written) := w.writer.writeAll w.buffer io.room io.direct
  if !written then ({ w with writer }, false)
  else
    let (writer, flushed) := writer.flushBuf io.flush
    if !flushed then ({ w with writer }, false)
    else if !io.sync then ({ w with writer }, false)
    else ({ w with writer, buffer := [] }, true)

/-- `write`; the outcome is that of the flush it may make. -/
def write [Bincode WalRecord] (w : FallibleWriter) (record : WalRecord) (elapsed : Bool)
    (io : IoOutcome) : Option (FallibleWriter × Bool) :=
  match Bincode.serialize record with
  | none => none
  | some data =>
    let w := { w with buffer := w.buffer ++ leBytes 4 data.length ++ data }
    if w.buffer.length ≥ w.maxBufferSize || elapsed then some (w.flush io) else some (w, true)

end FallibleWriter

inductive RetryCall
  | write (record : WalRecord) (elapsed : Bool) (io : IoOutcome)
  | flush (io : IoOutcome)

/-- A writer and what its caller knows. -/
structure WriterRun where
  w : FallibleWriter
  /-- the records given to `write`; one that returns an error has taken its record all the same -/
  accepted : List WalRecord
  /-- the last call has flushed, and its flush returned `Ok` -/
  flushed : Bool

namespace WriterRun

/-- A writer on a new file. -/
def start : WriterRun := { w := FallibleWriter.open [], accepted := [], flushed := false }

def step [Bincode WalRecord] (s : WriterRun) : RetryCall → Option WriterRun
  | .write record elapsed io =>
    match s.w.write record elapsed io with
    | none => none
    -- a write that has not flushed leaves its record in the buffer
    | some (w, ok) =>
      some { w, accepted := s.accepted ++ [record], flushed := ok && w.buffer.isEmpty }
  | .flush io =>
    let (w, ok) := s.w.flush io
    some { s with w, flushed := ok }

end WriterRun
end LightGraph
