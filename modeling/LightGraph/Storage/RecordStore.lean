import LightGraph.Storage.WalThread

/-!
# What a node store and an edge store have in common

`NodeStore` and `EdgeStore` are one design written twice: a concurrent map from ids to
records, a counter of fresh ids, a queue of freed ones, and a WAL that every change is sent
to. `RecordStore ρ` is that design for records of type `ρ`; the two stores' own files say what
each operation does to a record.

The WAL is seen from the business side: `WalLog` is the file the thread found when it was
spawned and the commands sent to it since. What the file holds once everything has been written
out is `WalLog.file`; that the thread really leaves it so, whatever it was doing in between, is
`Proof/WalThread.lean`.
-/

set_option autoImplicit false

namespace LightGraph

open Lib

/-- A store's end of its WAL thread. -/
structure WalLog where
  /-- the file when the thread was spawned -/
  opened : Bytes
  /-- the commands sent since, oldest first -/
  sent : List WalCmd

/-- The file once every command sent has been written out. -/
def WalLog.file (w : WalLog) : Bytes := w.opened ++ encodeCmds w.sent

def WalLog.send (w : WalLog) (cmd : WalCmd) : WalLog := { w with sent := w.sent ++ [cmd] }

structure RecordStore (ρ : Type) where
  records : FiniteMap UInt64 ρ
  nextId : UInt64
  freeList : List UInt64
  freeCount : UInt64
  wal : Option WalLog

/-- What the replay closure of `open` has built so far. -/
structure Replay (ρ : Type) where
  records : FiniteMap UInt64 ρ
  freeList : List UInt64
  freeCount : UInt64
  maxId : UInt64
  /-- the INSERT records taken, which a node store counts -/
  inserted : UInt64

namespace RecordStore
variable {ρ : Type}

/-- A store without a log. -/
def new : RecordStore ρ :=
  { records := ∅, nextId := 0, freeList := [], freeCount := 0, wal := none }

def get (s : RecordStore ρ) (id : UInt64) : Option ρ := s.records.get id

/-- The commands sent to the WAL since the store was opened. -/
def sent (s : RecordStore ρ) : List WalCmd := (s.wal.map WalLog.sent).getD []

/-- The log on disk once it has been flushed. -/
def file (s : RecordStore ρ) : Bytes := (s.wal.map WalLog.file).getD []

/-! ## WAL helpers -/

section Wal
variable [Bincode ρ]

def walInsert (s : RecordStore ρ) (id : UInt64) (r : ρ) : RecordStore ρ :=
  match s.wal with
  | none => s
  | some wal =>
    match Bincode.serialize r with
    | none => s
    | some data => { s with wal := some (wal.send (.insert id data)) }

def walDelete (s : RecordStore ρ) (id : UInt64) : RecordStore ρ :=
  match s.wal with
  | none => s
  | some wal => { s with wal := some (wal.send (.delete id)) }

/-! ## Id allocation -/

/-- `alloc_id`: the oldest freed id, or a fresh one. -/
def allocId (s : RecordStore ρ) : UInt64 × RecordStore ρ :=
  match s.freeList with
  | id :: freeList => (id, { s with freeList, freeCount := s.freeCount - 1 })
  | [] => (s.nextId, { s with nextId := s.nextId + 1 })

/-! ## Writes -/

/-- Insert under an id the caller has: first the map, then the log. -/
def insertWithId (s : RecordStore ρ) (id : UInt64) (r : ρ) : RecordStore ρ :=
  { s with records := s.records.put id r }.walInsert id r

/-- Allocate, then insert the record made for the id. -/
def insert (s : RecordStore ρ) (make : UInt64 → ρ) : UInt64 × RecordStore ρ :=
  let (id, s) := s.allocId
  (id, s.insertWithId id (make id))

/-- The updates: change the record in place and log it whole. An absent id is left absent, and
nothing is logged. -/
def modify (s : RecordStore ρ) (id : UInt64) (f : ρ → ρ) : RecordStore ρ × Bool :=
  match s.records.get id with
  | some r => ({ s with records := s.records.put id (f r) }.walInsert id (f r), true)
  | none => (s, false)

/-- `hard_delete`: the DELETE is logged first, whether or not the id is there. -/
def hardDelete (s : RecordStore ρ) (id : UInt64) : RecordStore ρ × Bool :=
  let s := s.walDelete id
  match s.records.get id with
  | some _ =>
    ({ s with
        records := s.records.remove id
        freeList := s.freeList ++ [id]
        freeCount := s.freeCount + 1 }, true)
  | none => (s, false)

/-! ## What a call leaves in each field -/

@[simp] theorem walInsert_records (s : RecordStore ρ) (id : UInt64) (r : ρ) :
    (s.walInsert id r).records = s.records := by
  unfold walInsert
  split <;> [rfl; (split <;> rfl)]

@[simp] theorem walInsert_nextId (s : RecordStore ρ) (id : UInt64) (r : ρ) :
    (s.walInsert id r).nextId = s.nextId := by
  unfold walInsert
  split <;> [rfl; (split <;> rfl)]

@[simp] theorem walInsert_freeList (s : RecordStore ρ) (id : UInt64) (r : ρ) :
    (s.walInsert id r).freeList = s.freeList := by
  unfold walInsert
  split <;> [rfl; (split <;> rfl)]

@[simp] theorem insert_id (s : RecordStore ρ) (make : UInt64 → ρ) :
    (s.insert make).1 = s.allocId.1 := rfl

omit [Bincode ρ] in
@[simp] theorem allocId_records (s : RecordStore ρ) : s.allocId.2.records = s.records := by
  unfold allocId
  split <;> rfl

@[simp] theorem insert_records (s : RecordStore ρ) (make : UInt64 → ρ) :
    (s.insert make).2.records = s.records.put s.allocId.1 (make s.allocId.1) := by
  simp [insert, insertWithId]

@[simp] theorem insert_nextId (s : RecordStore ρ) (make : UInt64 → ρ) :
    (s.insert make).2.nextId = s.allocId.2.nextId := by
  simp [insert, insertWithId]

@[simp] theorem insert_freeList (s : RecordStore ρ) (make : UInt64 → ρ) :
    (s.insert make).2.freeList = s.allocId.2.freeList := by
  simp [insert, insertWithId]

theorem insertWithId_records (s : RecordStore ρ) (id : UInt64) (r : ρ) :
    (s.insertWithId id r).records = s.records.alter id fun _ => some r := by
  simp [insertWithId, FiniteMap.put_eq_alter]

theorem modify_records (s : RecordStore ρ) (id : UInt64) (f : ρ → ρ) :
    (s.modify id f).1.records = s.records.alter id (Option.map f) := by
  unfold modify FiniteMap.alter
  cases h : s.records.get id with
  | none => exact (FiniteMap.remove_of_get_none h).symm
  | some r => simp

@[simp] theorem modify_nextId (s : RecordStore ρ) (id : UInt64) (f : ρ → ρ) :
    (s.modify id f).1.nextId = s.nextId := by
  unfold modify
  split <;> simp

@[simp] theorem modify_freeList (s : RecordStore ρ) (id : UInt64) (f : ρ → ρ) :
    (s.modify id f).1.freeList = s.freeList := by
  unfold modify
  split <;> simp

/-- A change in place makes no new key. -/
theorem isSome_of_modify {s : RecordStore ρ} {id : UInt64} {f : ρ → ρ} {id' : UInt64}
    (h : ((s.modify id f).1.records.get id').isSome = true) :
    (s.records.get id').isSome = true := by
  rw [modify_records, FiniteMap.get_alter] at h
  split at h
  · rename_i heq
    rw [heq]
    simpa using h
  · exact h

omit [Bincode ρ] in
@[simp] theorem walDelete_records (s : RecordStore ρ) (id : UInt64) :
    (s.walDelete id).records = s.records := by
  unfold walDelete
  split <;> rfl

omit [Bincode ρ] in
@[simp] theorem walDelete_nextId (s : RecordStore ρ) (id : UInt64) :
    (s.walDelete id).nextId = s.nextId := by
  unfold walDelete
  split <;> rfl

omit [Bincode ρ] in
@[simp] theorem walDelete_freeList (s : RecordStore ρ) (id : UInt64) :
    (s.walDelete id).freeList = s.freeList := by
  unfold walDelete
  split <;> rfl

omit [Bincode ρ] in
@[simp] theorem hardDelete_records (s : RecordStore ρ) (id : UInt64) :
    (s.hardDelete id).1.records = s.records.remove id := by
  unfold hardDelete
  cases h : s.records.get id with
  | none => simp [h, FiniteMap.remove_of_get_none h]
  | some r => simp [h]

omit [Bincode ρ] in
@[simp] theorem hardDelete_nextId (s : RecordStore ρ) (id : UInt64) :
    (s.hardDelete id).1.nextId = s.nextId := by
  unfold hardDelete
  cases h : s.records.get id <;> simp [h]

omit [Bincode ρ] in
theorem hardDelete_freeList (s : RecordStore ρ) (id : UInt64) :
    (s.hardDelete id).1.freeList =
      if (s.records.get id).isSome then s.freeList ++ [id] else s.freeList := by
  unfold hardDelete
  cases h : s.records.get id <;> simp [h]

end Wal
end RecordStore

/-! ## Recovery -/

namespace Replay
variable {ρ : Type}

def empty : Replay ρ := { records := ∅, freeList := [], freeCount := 0, maxId := 0, inserted := 0 }

/-- The replay closure of `open`. -/
def onRecord [Bincode ρ] (st : Replay ρ) (r : LogRecord) : Replay ρ :=
  if r.opcode = 1 then
    match Bincode.deserialize r.payload with
    | some rec =>
      { st with
        maxId := max st.maxId r.id
        inserted := st.inserted + 1
        records := st.records.put r.id rec }
    -- a payload that does not decode is passed over, its id with it
    | none => st
  else if r.opcode = 2 then
    match st.records.get r.id with
    | some _ =>
      { st with
        records := st.records.remove r.id
        freeList := st.freeList ++ [r.id]
        freeCount := st.freeCount + 1 }
    | none => st
  else st

end Replay

/-- `open`: the state the log replays to, and a WAL thread on the same file. -/
def RecordStore.openReplay {ρ : Type} [Bincode ρ] (file : Bytes) :
    Except IoError (RecordStore ρ × UInt64) :=
  match replayIfAny Replay.onRecord file Replay.empty with
  | .error e => .error e
  | .ok st =>
    .ok ({ records := st.records
           nextId := if file.length > 4 then st.maxId + 1 else 0
           freeList := st.freeList
           freeCount := st.freeCount
           wal := some { opened := spawnFile file, sent := [] } }, st.inserted)

end LightGraph
