import LightGraph.Lib.Frames
import LightGraph.Lib.Machine
import LightGraph.Storage.Types

/-!
# The WAL thread and its log

Two halves, as in the source: the thread that is the single writer of a store's log, with the
commands business threads send to it, and `replayWal`, which reads a log back when a store is
opened.

A log file is its bytes; an absent file and an empty one are both `[]`, since neither `spawn`
nor `open` tells them apart. I/O succeeds throughout, so a file is what has been written to it.
`fsync` decides what of it survives a power failure and is not part of this model.
-/

set_option autoImplicit false

namespace LightGraph

open Lib

/-- `b"LGDB"`. -/
def magic : Bytes := [0x4C, 0x47, 0x44, 0x42]

/-- A command sent to the WAL thread. The reply channel of a `flush` or `shutdown` is created
by the call and is known by a number of its own. -/
inductive WalCmd
  /-- insert/update: id and serialized record -/
  | insert (id : UInt64) (record : Bytes)
  | delete (id : UInt64)
  /-- write everything out now, then reply -/
  | flush (reply : Nat)
  /-- write everything out, reply, stop -/
  | shutdown (reply : Nat)
  deriving DecidableEq

/-! ## The log format -/

/-- Appends `[total_len: u32 LE][opcode: u8 = 1][id: u64 LE][payload...]`. The cast of the
length to `u32` is the truncation of `leBytes`. -/
def encodeInsert (buf : Bytes) (id : UInt64) (record : Bytes) : Bytes :=
  let total := 1 + 8 + record.length
  buf ++ leBytes 4 total ++ [1] ++ leBytes 8 id.toNat ++ record

def encodeDelete (buf : Bytes) (id : UInt64) : Bytes :=
  let total := 1 + 8
  buf ++ leBytes 4 total ++ [2] ++ leBytes 8 id.toNat

/-- What `wal_loop` appends to its buffer for a command. -/
def encodeCmd (buf : Bytes) : WalCmd → Bytes
  | .insert id record => encodeInsert buf id record
  | .delete id => encodeDelete buf id
  | .flush _ => buf
  | .shutdown _ => buf

/-- The encodings of the commands, one after another. -/
def encodeCmds (cmds : List WalCmd) : Bytes := cmds.foldl encodeCmd []

inductive IoError
  | unexpectedEof
  | invalidData (msg : String)
  /-- `InvalidData` around the serializer's own error -/
  | undecodable
  deriving DecidableEq

/-- `Read::read_exact` at the current position: `n` bytes and the file behind them. -/
def readExact (n : Nat) (file : Bytes) : Except IoError (Bytes × Bytes) :=
  if n ≤ file.length then .ok (file.take n, file.drop n) else .error .unexpectedEof

/-- The arguments of one call of `on_record`. -/
structure LogRecord where
  opcode : UInt8
  id : UInt64
  payload : Bytes
  deriving DecidableEq

/-- One record behind its length field: the nine header bytes, then the payload. -/
def readRecord (total : Nat) (file : Bytes) : Except IoError (LogRecord × Bytes) :=
  match readExact 9 file with
  | .error e => .error e
  | .ok (header, file) =>
    let opcode := header.headD 0
    let id := UInt64.ofNat (leNat (header.drop 1))
    let payloadLen := total - 9
    match if payloadLen > 0 then readExact payloadLen file else .ok ([], file) with
    | .error e => .error e
    | .ok (payload, file) => .ok (⟨opcode, id, payload⟩, file)

/-- The loop of `replay_wal`, from the first record on. The closure is a function of the state
it captures; that state comes back with the result, since an error does not undo the calls
already made. Each round reads at least four bytes, so the file's length is enough fuel. -/
def replayLoop {σ : Type} (onRecord : σ → LogRecord → σ) :
    Nat → Bytes → σ → σ × Except IoError Unit
  | 0, _, s => (s, .ok ())
  | fuel + 1, file, s =>
    match readExact 4 file with
    -- the end of the file, or a length field that was cut: both end the log
    | .error .unexpectedEof => (s, .ok ())
    | .error e => (s, .error e)
    | .ok (lenBuf, file) =>
      let total := leNat lenBuf
      if total < 9 then (s, .error (.invalidData "record too short"))
      else
        match readRecord total file with
        | .error e => (s, .error e)
        | .ok (r, file) => replayLoop onRecord fuel file (onRecord s r)

/-- Replay a WAL log file, calling `onRecord` for each record. -/
def replayWal {σ : Type} (onRecord : σ → LogRecord → σ) (file : Bytes) (s : σ) :
    σ × Except IoError Unit :=
  match readExact 4 file with
  | .error _ => (s, .ok ())
  | .ok (header, file) =>
    if header ≠ magic then (s, .error (.invalidData "bad wal magic"))
    else replayLoop onRecord file.length file s

/-- The records `replayWal` delivers. -/
def replayedRecords (file : Bytes) : List LogRecord × Except IoError Unit :=
  replayWal (fun seen r => seen ++ [r]) file []

/-- The part of a store's `open` that reads the log: nothing is replayed from a file that
holds no more than the magic. -/
def replayIfAny {σ : Type} (onRecord : σ → LogRecord → σ) (file : Bytes) (s : σ) :
    Except IoError σ :=
  if file.length > 4 then
    match replayWal onRecord file s with
    | (s, .ok ()) => .ok s
    | (_, .error e) => .error e
  else .ok s

/-- What `WalThread::spawn` makes of the file it opens for appending: a file that has no byte
yet gets the magic, any other is left as it is. -/
def spawnFile (existing : Bytes) : Bytes :=
  if existing.length > 0 then existing else existing ++ magic

/-! ## The thread -/

/-- Where `wal_loop` stands. -/
inductive LoopPc
  /-- about to call `rx.recv_timeout` -/
  | recv
  /-- `Ok(cmd)`: the command is out of the channel, the running flag not read yet -/
  | taken (cmd : WalCmd)
  /-- `Err(_)`: the running flag not read yet -/
  | timedOut
  /-- at the size/time test that ends a round -/
  | syncCheck
  | exited
  deriving DecidableEq

/-- Where a call of `shutdown` or `drop` stands. -/
inductive ClosePc
  /-- neither has been called -/
  | live
  /-- `shutdown`: the flag is down, the command not sent -/
  | shutdownSend
  /-- `shutdown`: waiting for the reply -/
  | shutdownWait (reply : Nat)
  /-- `drop`: the flag is down, the wake-up not sent -/
  | dropWake
  /-- waiting for the thread to end -/
  | joining
  | closed
  deriving DecidableEq

structure WalThread where
  /-- the commands in the bounded channel, oldest first -/
  queue : List WalCmd
  channelCap : Nat
  running : Bool
  pc : LoopPc
  buffer : Bytes
  batchSize : Nat
  file : Bytes
  pendingBytes : UInt64
  /-- the reply channels that hold a `()` -/
  replies : List Nat
  /-- the calls of `flush` that have not returned -/
  flushing : List Nat
  nextReply : Nat
  closing : ClosePc
  /-- every command business threads have put into the channel, oldest first -/
  history : List WalCmd

/-- The state `spawn` leaves behind on a file. -/
def WalThread.spawn (existing : Bytes) (batchSize channelCap : Nat) : WalThread :=
  { queue := [], channelCap, running := true, pc := .recv, buffer := [], batchSize,
    file := spawnFile existing, pendingBytes := 0, replies := [], flushing := [],
    nextReply := 0, closing := .live, history := [] }

/-- One step of the thread or of one of its callers. -/
inductive WalAct
  | sendInsert (id : UInt64) (record : Bytes)
  | sendDelete (id : UInt64)
  /-- `flush`: the command enters the channel -/
  | flushSend
  /-- `flush`: the reply is received and the call returns -/
  | flushReturn (reply : Nat)
  /-- `recv_timeout` returns `Ok` -/
  | recvCmd
  /-- `recv_timeout` returns `Err` -/
  | recvTimeout
  /-- the `Ok` arm -/
  | process
  /-- the `Err` arm -/
  | idle
  /-- the end of a round; the clock decides `timedOut` -/
  | sync (timedOut : Bool)
  /-- `shutdown` is called: `running.store(false)` -/
  | shutdown
  | shutdownSend
  | shutdownReply
  /-- `drop` is called: `running.store(false)` -/
  | drop
  /-- the `try_send` of the dummy delete -/
  | dropWake
  | join

/-- The steps of `wal_loop`. -/
def WalAct.ofLoop : WalAct → Bool
  | .recvCmd | .recvTimeout | .process | .idle | .sync _ => true
  | _ => false

def WalAct.ofFlush : WalAct → Bool
  | .flushSend | .flushReturn _ => true
  | _ => false

namespace WalThread

/-- The channel takes one more command. A channel of capacity zero hands a command over to a
receiver that is waiting for one. -/
def hasRoom (s : WalThread) : Bool :=
  if s.channelCap = 0 then s.queue.isEmpty && s.pc == .recv
  else s.queue.length < s.channelCap

/-- A business thread's blocking `send`. -/
def send (s : WalThread) (cmd : WalCmd) (bytes : UInt64) : Option WalThread :=
  if s.closing = .live ∧ s.hasRoom then
    some { s with
      queue := s.queue ++ [cmd]
      pendingBytes := s.pendingBytes + bytes
      history := s.history ++ [cmd] }
  else none

/-- `flush_and_sync`. -/
def flushAndSync (s : WalThread) : WalThread :=
  if s.buffer.isEmpty then s
  else { s with file := s.file ++ s.buffer, pendingBytes := 0, buffer := [] }

/-- The `Ok(cmd)` arm of the loop. -/
def handle (s : WalThread) (cmd : WalCmd) : WalThread :=
  -- the flag is read before the command is, and the command is dropped
  if !s.running then { s.flushAndSync with pc := .exited }
  else
    match cmd with
    | .insert id record => { s with buffer := encodeInsert s.buffer id record, pc := .syncCheck }
    | .delete id => { s with buffer := encodeDelete s.buffer id, pc := .syncCheck }
    | .flush reply =>
      let s := s.flushAndSync
      { s with replies := s.replies ++ [reply], pc := .recv }
    | .shutdown reply =>
      let s := s.flushAndSync
      { s with replies := s.replies ++ [reply], pc := .exited }

/-- The test that ends a round. -/
def syncRound (s : WalThread) (timedOut : Bool) : WalThread :=
  let bufferFull := s.buffer.length ≥ s.batchSize
  if (bufferFull || timedOut) && !s.buffer.isEmpty then { s.flushAndSync with pc := .recv }
  else { s with pc := .recv }

def step (s : WalThread) : WalAct → Option WalThread
  | .sendInsert id record => s.send (.insert id record) (UInt64.ofNat record.length + 9)
  | .sendDelete id => s.send (.delete id) 9
  | .flushSend =>
    (s.send (.flush s.nextReply) 0).map fun s =>
      { s with flushing := s.flushing ++ [s.nextReply], nextReply := s.nextReply + 1 }
  | .flushReturn reply =>
    if reply ∈ s.flushing ∧ reply ∈ s.replies then
      -- the caller clears the count too, whatever has been sent in the meantime
      some { s with flushing := s.flushing.erase reply, pendingBytes := 0 }
    else none
  | .recvCmd =>
    match s.pc, s.queue with
    | .recv, cmd :: queue => some { s with queue, pc := .taken cmd }
    | _, _ => none
  | .recvTimeout =>
    if s.pc = .recv ∧ s.queue = [] then some { s with pc := .timedOut } else none
  | .process =>
    match s.pc with
    | .taken cmd => some (s.handle cmd)
    | _ => none
  | .idle =>
    if s.pc = .timedOut then
      if !s.running && s.buffer.isEmpty then some { s with pc := .exited }
      else some { s with pc := .syncCheck }
    else none
  | .sync timedOut => if s.pc = .syncCheck then some (s.syncRound timedOut) else none
  -- Both calls own the thread, so no other call is under way when they start.
  | .shutdown =>
    if s.closing = .live ∧ s.flushing = [] then
      some { s with running := false, closing := .shutdownSend }
    else none
  | .shutdownSend =>
    if s.closing = .shutdownSend then
      if s.pc = .exited then some { s with closing := .joining }
      else if s.hasRoom then
        some { s with
          queue := s.queue ++ [.shutdown s.nextReply]
          nextReply := s.nextReply + 1
          closing := .shutdownWait s.nextReply }
      else none
    else none
  -- `recv` also returns once the reply sender is dropped, and that is in the command: a loop that
  -- takes the command with the flag down drops it, one that has left it in the channel does not.
  | .shutdownReply =>
    match s.closing with
    | .shutdownWait reply =>
      if reply ∈ s.replies ∨ s.pc = .exited ∧ .shutdown reply ∉ s.queue then
        some { s with closing := .joining }
      else none
    | _ => none
  | .drop =>
    if s.closing = .live ∧ s.flushing = [] then
      some { s with running := false, closing := .dropWake }
    else none
  | .dropWake =>
    if s.closing = .dropWake then
      if s.pc ≠ .exited ∧ s.hasRoom then
        some { s with queue := s.queue ++ [.delete 0xFFFFFFFFFFFFFFFF], closing := .joining }
      else some { s with closing := .joining }
    else none
  | .join =>
    if s.closing = .joining ∧ s.pc = .exited then some { s with closing := .closed } else none

/-- `send_insert` and `send_delete`. -/
def sendCmd (s : WalThread) : WalCmd → Option WalThread
  | .insert id record => s.step (.sendInsert id record)
  | .delete id => s.step (.sendDelete id)
  | .flush _ => none
  | .shutdown _ => none

/-- The file as it can be found: as a step has left it, or with a first part of what a step is
appending. -/
def FileDuring (s : WalThread) (file : Bytes) : Prop :=
  file = s.file ∨ ∃ act t, s.step act = some t ∧ s.file <+: file ∧ file <+: t.file

/-- The commands that have left their sender and not reached the buffer: the one the loop
holds, then those in the channel. -/
def inFlight (s : WalThread) : List WalCmd :=
  match s.pc with
  | .taken cmd => cmd :: s.queue
  | _ => s.queue

end WalThread
end LightGraph
