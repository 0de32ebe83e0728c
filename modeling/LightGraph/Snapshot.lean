import LightGraph.Storage.PropStore

/-!
# Snapshots

`snapshot/mod.rs`. A snapshot is one file with everything that is in the three stores; the
manifest, a file beside it, says which snapshot is the latest and which WAL files its contents
make superfluous. A directory is a map from file names to contents.

Both files are written in place: created or cut to nothing first, then filled. What the writer's
buffer and `fsync` decide is when the bytes get there, not which.
-/

set_option autoImplicit false

namespace LightGraph

open Lib

/-! ## Files -/

/-- The files of a directory. -/
abbrev Files := FiniteMap String Bytes

/-- What a write in place does to a file, one byte at a time. -/
inductive FileEffect
  /-- `File::create` -/
  | truncate (name : String)
  | append (name : String) (byte : UInt8)

def FileEffect.apply (files : Files) : FileEffect → Files
  | .truncate name => files.put name []
  | .append name byte => files.put name ((files.get name).getD [] ++ [byte])

/-- `fs::write`, and `File::create` followed by `write_all`. -/
def writeInPlace (name : String) (data : Bytes) : List FileEffect :=
  .truncate name :: data.map (.append name)

inductive SnapshotError
  | notFound
  /-- an error of the serializer -/
  | undecodable
  deriving DecidableEq

/-! ## The manifest -/

structure Manifest where
  latestSnapshotId : UInt64
  latestSnapshotPath : String
  mergedWalFiles : List String
  deriving DecidableEq

/-- What the manifest relies on of `serde_json::to_string_pretty` and `serde_json::from_str`. -/
class SerdeJson (α : Type) where
  toStringPretty : α → Bytes
  fromStr : Bytes → Option α
  roundtrip : ∀ a, fromStr (toStringPretty a) = some a
  truncated : ∀ a start, start <+: toStringPretty a → start ≠ toStringPretty a →
    fromStr start = none

namespace Manifest

def fileName : String := "manifest.json"

def empty : Manifest :=
  { latestSnapshotId := 0, latestSnapshotPath := "", mergedWalFiles := [] }

section Json
variable [SerdeJson Manifest]

def read (dir : Files) : Except SnapshotError Manifest :=
  match dir.get fileName with
  | some data =>
    match SerdeJson.fromStr data with
    | some manifest => .ok manifest
    | none => .error .undecodable
  | none => .ok empty

def writeEffects (m : Manifest) : List FileEffect :=
  writeInPlace fileName (SerdeJson.toStringPretty m)

def write (m : Manifest) (dir : Files) : Files := m.writeEffects.foldl FileEffect.apply dir

end Json
end Manifest

/-! ## Snapshot data format -/

/-- Full snapshot of all stores at a point in time. -/
structure SnapshotData where
  version : UInt32
  snapshotId : UInt64
  nodes : List Node
  edges : List Edge
  propColumns : List (LabelId × String × List (Option Value))
  nextNodeId : UInt64
  nextEdgeId : UInt64

/-- What a caller passes to `take_snapshot`. -/
structure SnapshotInput where
  nodes : List Node
  edges : List Edge
  propColumns : List (LabelId × String × List (Option Value))
  nextNodeId : UInt64
  nextEdgeId : UInt64

def SnapshotInput.data (input : SnapshotInput) (snapshotId : UInt64) : SnapshotData :=
  { version := 1
    snapshotId
    nodes := input.nodes
    edges := input.edges
    propColumns := input.propColumns
    nextNodeId := input.nextNodeId
    nextEdgeId := input.nextEdgeId }

/-- `format!("snapshot-{:04}.bin", id)`. -/
def snapshotName (id : UInt64) : String :=
  "snapshot-" ++ String.ofList ((Nat.toDigits 10 id.toNat).leftpad 4 '0') ++ ".bin"

namespace SnapshotWriter

/-- `write_snapshot`. -/
def writeEffects [Bincode SnapshotData] (snapshotId : UInt64) (input : SnapshotInput) :
    List FileEffect :=
  writeInPlace (snapshotName snapshotId) (Bincode.bytes (input.data snapshotId))

end SnapshotWriter

namespace SnapshotReader
variable [Bincode SnapshotData]

/-- Read a snapshot by ID. -/
def readSnapshot (dir : Files) (snapshotId : UInt64) : Except SnapshotError SnapshotData :=
  match dir.get (snapshotName snapshotId) with
  | none => .error .notFound
  | some buf =>
    match Bincode.deserialize buf with
    | some data => .ok data
    | none => .error .undecodable

/-- Load the latest snapshot according to the manifest. -/
def loadLatest (dir : Files) (manifest : Manifest) :
    Except SnapshotError (Option SnapshotData) :=
  if manifest.latestSnapshotId = 0 then .ok none
  else (readSnapshot dir manifest.latestSnapshotId).map some

end SnapshotReader

/-! ## The manager -/

structure SnapshotManager where
  manifest : Manifest
  walBytesSinceSnapshot : UInt64
  snapshotIntervalBytes : UInt64

namespace SnapshotManager

def new [SerdeJson Manifest] (dir : Files) : Except SnapshotError SnapshotManager :=
  match Manifest.read dir with
  | .error e => .error e
  | .ok manifest =>
    .ok { manifest, walBytesSinceSnapshot := 0, snapshotIntervalBytes := 536870912 }

/-- Track WAL bytes written since last snapshot. -/
def addWalBytes (m : SnapshotManager) (bytes : UInt64) : SnapshotManager :=
  { m with walBytesSinceSnapshot := m.walBytesSinceSnapshot + bytes }

/-- Check if a snapshot should be taken. -/
def shouldSnapshot (m : SnapshotManager) : Bool :=
  m.manifest.latestSnapshotId == 0 || m.walBytesSinceSnapshot ≥ m.snapshotIntervalBytes

/-- The manifest behind one more snapshot. -/
def nextManifest (m : SnapshotManager) : Manifest :=
  let id := m.manifest.latestSnapshotId + 1
  { m.manifest with latestSnapshotId := id, latestSnapshotPath := snapshotName id }

/-- The number the next snapshot of a manager gets. -/
def nextId (m : SnapshotManager) : UInt64 := m.nextManifest.latestSnapshotId

/-- The bytes `take_snapshot` writes: the snapshot, then the manifest. -/
def takeEffects [Bincode SnapshotData] [SerdeJson Manifest] (m : SnapshotManager)
    (input : SnapshotInput) : List FileEffect :=
  SnapshotWriter.writeEffects m.nextManifest.latestSnapshotId input ++ m.nextManifest.writeEffects

/-- Write a snapshot and update the manifest; returns the snapshot's id. -/
def takeSnapshot [Bincode SnapshotData] [SerdeJson Manifest] (m : SnapshotManager) (dir : Files)
    (input : SnapshotInput) : UInt64 × SnapshotManager × Files :=
  (m.nextManifest.latestSnapshotId,
    { m with manifest := m.nextManifest, walBytesSinceSnapshot := 0 },
    (m.takeEffects input).foldl FileEffect.apply dir)

/-- Mark WAL files as merged into snapshot. -/
def mergeWal [SerdeJson Manifest] (m : SnapshotManager) (dir : Files) (walFile : String) :
    SnapshotManager × Files :=
  let manifest := { m.manifest with mergedWalFiles := m.manifest.mergedWalFiles ++ [walFile] }
  ({ m with manifest }, manifest.write dir)

/-- The stores' logs. -/
def walFiles : List String := ["nodes.wal", "edges.wal", "props.wal"]

/-- Recover from the latest snapshot: its data, and the WAL files to replay on it. -/
def recover [Bincode SnapshotData] (m : SnapshotManager) (dir : Files) :
    Except SnapshotError (Option SnapshotData × List String) :=
  match SnapshotReader.loadLatest dir m.manifest with
  | .error e => .error e
  | .ok snapshot =>
    .ok (snapshot,
      if snapshot.isSome then
        walFiles.filter fun f => !m.manifest.mergedWalFiles.contains f && (dir.get f).isSome
      else [])

end SnapshotManager

/-! ## What a reader finds -/

section Readers
variable [SerdeJson Manifest]

theorem Manifest.read_of_get {dir : Files} {manifest : Manifest}
    (h : dir.get Manifest.fileName = some (SerdeJson.toStringPretty manifest)) :
    Manifest.read dir = .ok manifest := by
  rw [Manifest.read, h]
  simp only [SerdeJson.roundtrip]

theorem Manifest.read_of_get_none {dir : Files} (h : dir.get Manifest.fileName = none) :
    Manifest.read dir = .ok .empty := by
  rw [Manifest.read, h]

/-- A manifest that stops too early is no manifest. -/
theorem Manifest.read_of_cut {dir : Files} {manifest : Manifest} {n : Nat}
    (hn : n < (SerdeJson.toStringPretty manifest).length)
    (h : dir.get Manifest.fileName = some ((SerdeJson.toStringPretty manifest).take n)) :
    Manifest.read dir = .error .undecodable := by
  have hne : (SerdeJson.toStringPretty manifest).take n ≠ SerdeJson.toStringPretty manifest := by
    intro heq
    have hlen := congrArg List.length heq
    rw [List.length_take] at hlen
    omega
  rw [Manifest.read, h]
  simp only [SerdeJson.truncated manifest _ (List.take_prefix _ _) hne]

theorem SnapshotManager.manifest_of_new {files : Files} {m : SnapshotManager}
    (h : SnapshotManager.new files = .ok m) : Manifest.read files = .ok m.manifest := by
  unfold SnapshotManager.new at h
  split at h
  · exact absurd h (by simp)
  · rename_i manifest hread
    rw [hread, ← Except.ok.inj h]

end Readers

section Readers
variable [Bincode SnapshotData]

theorem SnapshotReader.loadLatest_of_get {dir : Files} {manifest : Manifest} {d : SnapshotData}
    (hid : manifest.latestSnapshotId ≠ 0)
    (hfile : dir.get (snapshotName manifest.latestSnapshotId) = some (Bincode.bytes d)) :
    SnapshotReader.loadLatest dir manifest = .ok (some d) := by
  rw [SnapshotReader.loadLatest, if_neg hid, SnapshotReader.readSnapshot, hfile]
  simp only [Bincode.deserialize_bytes, Except.map]

/-- A snapshot that stops too early is no snapshot. -/
theorem SnapshotReader.loadLatest_of_cut {dir : Files} {manifest : Manifest} {d : SnapshotData}
    {data : Bytes} (hid : manifest.latestSnapshotId ≠ 0) (hdata : data <+: Bincode.bytes d)
    (hne : data ≠ Bincode.bytes d)
    (hfile : dir.get (snapshotName manifest.latestSnapshotId) = some data) :
    SnapshotReader.loadLatest dir manifest = .error .undecodable := by
  have hcut := Bincode.truncated d _ (Bincode.serialize_eq d) data hdata hne
  rw [SnapshotReader.loadLatest, if_neg hid, SnapshotReader.readSnapshot, hfile]
  simp only [hcut, Except.map]

theorem SnapshotReader.loadLatest_zero {dir : Files} {manifest : Manifest}
    (hid : manifest.latestSnapshotId = 0) : SnapshotReader.loadLatest dir manifest = .ok none := by
  rw [SnapshotReader.loadLatest, if_pos hid]

theorem SnapshotManager.recover_of_loadLatest {m : SnapshotManager}
    {dir : Files} {snapshot : Option SnapshotData}
    (h : SnapshotReader.loadLatest dir m.manifest = .ok snapshot) :
    m.recover dir = .ok (snapshot,
      if snapshot.isSome then
        walFiles.filter fun f => !m.manifest.mergedWalFiles.contains f && (dir.get f).isSome
      else []) := by
  rw [SnapshotManager.recover, h]

end Readers

/-! ## What the writes come to -/

/-- A write in place that has stopped somewhere behind the truncation. -/
theorem apply_writeInPlace_take (name : String) (data : Bytes) (n : Nat) (dir : Files) :
    ((writeInPlace name data).take (n + 1)).foldl FileEffect.apply dir
      = dir.put name (data.take n) := by
  have happend : ∀ (data written : Bytes),
      (data.map (FileEffect.append name)).foldl FileEffect.apply (dir.put name written)
        = dir.put name (written ++ data) := by
    intro data
    induction data with
    | nil => intro written; rw [List.append_nil]; rfl
    | cons b data ih =>
      intro written
      rw [List.map_cons, List.foldl_cons, FileEffect.apply, FiniteMap.get_put_self,
        FiniteMap.put_put_self, Option.getD_some, ih, List.append_assoc, List.singleton_append]
  rw [writeInPlace, List.take_succ_cons, ← List.map_take]
  exact happend (data.take n) []

theorem apply_writeInPlace (name : String) (data : Bytes) (dir : Files) :
    (writeInPlace name data).foldl FileEffect.apply dir = dir.put name data := by
  have h := apply_writeInPlace_take name data data.length dir
  rwa [List.take_length, List.take_of_length_le (by simp [writeInPlace])] at h

theorem snapshotName_toList (id : UInt64) :
    (snapshotName id).toList
      = "snapshot-".toList ++ (Nat.toDigits 10 id.toNat).leftpad 4 '0' ++ ".bin".toList := by
  simp only [snapshotName, String.toList_append, String.toList_ofList]

/-- The zeros in front do not count. -/
theorem ofDigitChars_leftpad (width n : Nat) :
    Nat.ofDigitChars 10 ((Nat.toDigits 10 n).leftpad width '0') 0 = n := by
  have hzeros : ∀ (k : Nat) (ds : List Char),
      Nat.ofDigitChars 10 (List.replicate k '0' ++ ds) 0 = Nat.ofDigitChars 10 ds 0 := by
    intro k ds
    induction k with
    | zero => rfl
    | succ k ih =>
      have hzero : 10 * 0 + ('0'.toNat - '0'.toNat) = 0 := by simp
      rw [List.replicate_succ, List.cons_append, Nat.ofDigitChars_cons, hzero, ih]
  rw [List.leftpad, hzeros, Nat.ofDigitChars_ten_toDigits]

theorem snapshotName_inj {id id' : UInt64} (h : snapshotName id = snapshotName id') :
    id = id' := by
  have hlist := congrArg String.toList h
  rw [snapshotName_toList, snapshotName_toList, List.append_left_inj, List.append_right_inj]
    at hlist
  have hnat := congrArg (Nat.ofDigitChars 10 · 0) hlist
  simp only [ofDigitChars_leftpad] at hnat
  exact UInt64.toNat_inj.mp hnat

/-- A snapshot's file is no other file. -/
theorem snapshotName_ne (id : UInt64) {name : String} (h : name.toList.head? ≠ some 's') :
    snapshotName id ≠ name := by
  rintro rfl
  have hhead : "snapshot-".toList.head? = some 's' := by decide
  exact h (by rw [snapshotName_toList, List.append_assoc, List.head?_append, hhead]; rfl)

theorem snapshotName_ne_manifest (id : UInt64) : snapshotName id ≠ Manifest.fileName :=
  snapshotName_ne id (by decide)

theorem takeSnapshot_files [Bincode SnapshotData] [SerdeJson Manifest] (m : SnapshotManager)
    (dir : Files) (input : SnapshotInput) :
    (m.takeSnapshot dir input).2.2
      = (dir.put (snapshotName m.nextId) (Bincode.bytes (input.data m.nextId))).put
          Manifest.fileName (SerdeJson.toStringPretty m.nextManifest) := by
  show (m.takeEffects input).foldl FileEffect.apply dir = _
  rw [SnapshotManager.takeEffects, List.foldl_append, SnapshotWriter.writeEffects,
    apply_writeInPlace, Manifest.writeEffects, apply_writeInPlace]
  rfl

end LightGraph
