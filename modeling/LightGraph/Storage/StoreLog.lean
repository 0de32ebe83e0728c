import LightGraph.Storage.WalThread

/-!
# The single-threaded store log

`store_log.rs`: the log of a store without a thread of its own. Records are collected in a buffer
that goes out when it is large or old, and when somebody asks for it. The file has the header of
the stores' other logs; a record is `[len: u32 LE][opcode: u8][payload]`, where `len` counts the
payload alone.

The `BufWriter` around the file is flushed with every use and never holds anything between two
calls, and I/O succeeds, so a log is its file and its own buffer.
-/

set_option autoImplicit false

namespace LightGraph

open Lib

structure StoreLog where
  file : Bytes
  buffer : Bytes
  batchSize : Nat
  bytesWritten : UInt64

/-- An absent file and an empty one get the magic. -/
def StoreLog.openWithOpts (existing : Bytes) (batchSize : Nat) : StoreLog :=
  if existing.length > 0 then
    { file := existing, buffer := [], batchSize, bytesWritten := UInt64.ofNat existing.length }
  else { file := existing ++ magic, buffer := [], batchSize, bytesWritten := 4 }

def StoreLog.open (existing : Bytes) : StoreLog := openWithOpts existing 65536

namespace StoreLog

def encodeRecord (buf : Bytes) (opcode : UInt8) (payload : Bytes) : Bytes :=
  let buf := buf ++ leBytes 4 payload.length ++ [opcode]
  if !payload.isEmpty then buf ++ payload else buf

/-- Writes the buffer to the file, and leaves the buffer as it is. -/
def flushBuffer (l : StoreLog) : StoreLog :=
  if !l.buffer.isEmpty then { l with file := l.file ++ l.buffer } else l

/-- `timedOut` is whether `batch_timeout` has passed since the last sync. -/
def maybeSync (l : StoreLog) (timedOut : Bool) : StoreLog :=
  if l.buffer.length ≥ l.batchSize || timedOut then
    let l := l.flushBuffer
    { l with bytesWritten := l.bytesWritten + UInt64.ofNat l.buffer.length, buffer := [] }
  else l

def appendInsert (l : StoreLog) (payload : Bytes) (timedOut : Bool) : StoreLog :=
  { l with buffer := encodeRecord l.buffer 1 payload }.maybeSync timedOut

def appendDelete (l : StoreLog) (idBytes : Bytes) (timedOut : Bool) : StoreLog :=
  { l with buffer := encodeRecord l.buffer 2 idBytes }.maybeSync timedOut

def syncNow (l : StoreLog) : StoreLog := l.flushBuffer

def flush (l : StoreLog) : StoreLog := l.syncNow

end StoreLog

/-- A call on an open log. -/
inductive StoreLogCall
  | appendInsert (payload : Bytes) (timedOut : Bool)
  | appendDelete (idBytes : Bytes) (timedOut : Bool)
  | syncNow
  | flush

namespace StoreLog

def call (l : StoreLog) : StoreLogCall → StoreLog
  | .appendInsert payload timedOut => l.appendInsert payload timedOut
  | .appendDelete idBytes timedOut => l.appendDelete idBytes timedOut
  | .syncNow => l.syncNow
  | .flush => l.flush

def callAll (l : StoreLog) (calls : List StoreLogCall) : StoreLog := calls.foldl call l

end StoreLog

/-! ## Reading -/

/-- The arguments of one call of `replay_log`'s `on_record`. -/
structure StoreLogRecord where
  opcode : UInt8
  payload : Bytes
  deriving DecidableEq

/-- One record behind its length field. -/
def readStoreLogRecord (len : Nat) (file : Bytes) : Except IoError (StoreLogRecord × Bytes) :=
  match readExact 1 file with
  | .error e => .error e
  | .ok (opcode, file) =>
    match if len > 0 then readExact len file else .ok ([], file) with
    | .error e => .error e
    | .ok (payload, file) => .ok (⟨opcode.headD 0, payload⟩, file)

/-- The loop of `replay_log`, from the first record on. Each round reads at least four bytes. -/
def replayLogLoop {σ : Type} (onRecord : σ → StoreLogRecord → σ) :
    Nat → Bytes → σ → σ × Except IoError Unit
  | 0, _, s => (s, .ok ())
  | fuel + 1, file, s =>
    match readExact 4 file with
    | .error .unexpectedEof => (s, .ok ())
    | .error e => (s, .error e)
    | .ok (lenBuf, file) =>
      match readStoreLogRecord (leNat lenBuf) file with
      | .error e => (s, .error e)
      -- a tombstone is read and passed over
      | .ok (r, file) => replayLogLoop onRecord fuel file (if r.opcode ≠ 0 then onRecord s r else s)

/-- `replay_log`. -/
def replayLog {σ : Type} (onRecord : σ → StoreLogRecord → σ) (file : Bytes) (s : σ) :
    σ × Except IoError Unit :=
  match readExact 4 file with
  | .error _ => (s, .ok ())
  | .ok (header, file) =>
    if header ≠ magic then (s, .error (.invalidData "bad magic"))
    else replayLogLoop onRecord file.length file s

/-- The records `replayLog` delivers. -/
def deliveredRecords (file : Bytes) : List StoreLogRecord × Except IoError Unit :=
  replayLog (fun seen r => seen ++ [r]) file []

end LightGraph
