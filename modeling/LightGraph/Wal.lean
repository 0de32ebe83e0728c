import LightGraph.Storage.WalThread

/-!
# The transaction log

`wal/mod.rs`: a second log format beside the stores' own, records of whole transactions, each
behind its length and with no header in front of the file. The writer collects records in a
buffer and writes it out when it is large, when the clock says so, or when `flush` is called.

A `HashMap` is a list of its entries here, in the order it happens to be iterated in: no code
looks into one.
-/

set_option autoImplicit false

namespace LightGraph

open Lib

inductive WalRecord
  | begin (txId : TxId)
  | commit (txId : TxId)
  | rollback (txId : TxId)
  | nodeCreate (txId : TxId) (id : NodeId) (labels : List String) (props : List (String × Value))
  | nodeUpdate (txId : TxId) (id : NodeId) (props : List (String × Value))
  | nodeDelete (txId : TxId) (id : NodeId)
  | edgeCreate (txId : TxId) (id : EdgeId) (src dst : NodeId) (etype : String)
      (props : List (String × Value))
  | edgeDelete (txId : TxId) (id : EdgeId)
  | checkpoint (snapshotId : UInt64)

structure WalWriter where
  file : Bytes
  buffer : Bytes
  maxBufferSize : Nat

/-- The file is opened for appending. -/
def WalWriter.open (existing : Bytes) : WalWriter :=
  { file := existing, buffer := [], maxBufferSize := 65536 }

namespace WalWriter

def flush (w : WalWriter) : WalWriter := { w with file := w.file ++ w.buffer, buffer := [] }

/-- `write`; `elapsed` is whether the fsync interval has passed. `none` is the panic of a record
that does not serialize. -/
def write [Bincode WalRecord] (w : WalWriter) (record : WalRecord) (elapsed : Bool) :
    Option WalWriter :=
  match Bincode.serialize record with
  | none => none
  | some data =>
    let w := { w with buffer := w.buffer ++ leBytes 4 data.length ++ data }
    if w.buffer.length ≥ w.maxBufferSize || elapsed then some w.flush else some w

/-- A run of writes; each record comes with what the clock said. -/
def writeAll [Bincode WalRecord] (w : WalWriter) : List (WalRecord × Bool) → Option WalWriter
  | [] => some w
  | (record, elapsed) :: later =>
    match w.write record elapsed with
    | none => none
    | some w => w.writeAll later

end WalWriter

/-! ## Sessions -/

/-- A call on an open writer. -/
inductive WriterCall
  | write (record : WalRecord) (elapsed : Bool)
  | flush

/-- The record a call hands to the writer. -/
def WriterCall.record? : WriterCall → Option WalRecord
  | .write record _ => some record
  | .flush => none

namespace WalWriter

def call [Bincode WalRecord] (w : WalWriter) : WriterCall → Option WalWriter
  | .write record elapsed => w.write record elapsed
  | .flush => some w.flush

def callAll [Bincode WalRecord] (w : WalWriter) : List WriterCall → Option WalWriter
  | [] => some w
  | c :: calls =>
    match w.call c with
    | none => none
    | some w => w.callAll calls

/-- What a session leaves of the file: the writer is opened, called, and flushed at the end. -/
def session [Bincode WalRecord] (file : Bytes) (calls : List WriterCall) : Option Bytes :=
  ((WalWriter.open file).callAll calls).map fun w => w.flush.file

/-- One session after another on the same path. -/
def sessions [Bincode WalRecord] (file : Bytes) : List (List WriterCall) → Option Bytes
  | [] => some file
  | calls :: later =>
    match session file calls with
    | none => none
    | some file => sessions file later

end WalWriter

/-! ## Reading -/

/-- The loop of `WalReader::replay`, with the records read so far. Each round reads at least
four bytes. -/
def WalReader.replayLoop [Bincode WalRecord] :
    Nat → Bytes → List WalRecord → Except IoError (List WalRecord)
  | 0, _, records => .ok records
  | fuel + 1, file, records =>
    match readExact 4 file with
    | .error .unexpectedEof => .ok records
    | .error e => .error e
    | .ok (lenBuf, file) =>
      let len := leNat lenBuf
      match readExact len file with
      | .error e => .error e
      | .ok (data, file) =>
        match Bincode.deserialize data with
        | none => .error .undecodable
        | some record => WalReader.replayLoop fuel file (records ++ [record])

/-- `WalReader::replay`. -/
def WalReader.replay [Bincode WalRecord] (file : Bytes) : Except IoError (List WalRecord) :=
  WalReader.replayLoop file.length file []

end LightGraph
