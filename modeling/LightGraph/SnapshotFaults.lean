import LightGraph.Lib.Machine
import LightGraph.Snapshot

/-!
# The snapshot manager over a disk that can fail

`take_snapshot` and `merge_wal` once more, with an outcome for each file they write. A file whose
writing fails has been written up to some byte, and the call returns the error. The manager in
memory is as the source has it then: the manifest is changed before it is written, the count of
WAL bytes behind it.
-/

set_option autoImplicit false

namespace LightGraph

open Lib

/-- What becomes of writing one file: it is written, or an I/O call fails with so many effects
done. A failing `sync_all` comes behind all of them. -/
abbrev WriteFault := Option Nat

/-- The effects of writing a file, and whether `Ok` is returned. -/
def writeFile (effects : List FileEffect) (dir : Files) : WriteFault → Bool × Files
  | none => (true, effects.foldl FileEffect.apply dir)
  | some done => (false, (effects.take done).foldl FileEffect.apply dir)

/-- The outcomes of the two files of a snapshot. -/
structure TakeFaults where
  snapshot : WriteFault
  manifest : WriteFault

namespace SnapshotManager
variable [Bincode SnapshotData] [SerdeJson Manifest]

/-- `take_snapshot`; `none` is its error. -/
def tryTakeSnapshot (m : SnapshotManager) (dir : Files) (input : SnapshotInput)
    (faults : TakeFaults) : Option UInt64 × SnapshotManager × Files :=
  let id := m.manifest.latestSnapshotId + 1
  let (written, dir) := writeFile (SnapshotWriter.writeEffects id input) dir faults.snapshot
  if !written then (none, m, dir)
  else
    let m := { m with manifest := { m.manifest with latestSnapshotId := id } }
    let m := { m with manifest := { m.manifest with latestSnapshotPath := snapshotName id } }
    let (written, dir) := writeFile m.manifest.writeEffects dir faults.manifest
    if !written then (none, m, dir)
    else (some id, { m with walBytesSinceSnapshot := 0 }, dir)

/-- `merge_wal`, and whether it returns `Ok`. -/
def tryMergeWal (m : SnapshotManager) (dir : Files) (walFile : String) (fault : WriteFault) :
    Bool × SnapshotManager × Files :=
  let m := { m with manifest :=
    { m.manifest with mergedWalFiles := m.manifest.mergedWalFiles ++ [walFile] } }
  let (ok, dir) := writeFile m.manifest.writeEffects dir fault
  (ok, m, dir)

end SnapshotManager

/-- A call on a manager. -/
inductive SnapshotCall
  | takeSnapshot (input : SnapshotInput) (faults : TakeFaults)
  | mergeWal (walFile : String) (fault : WriteFault)
  | addWalBytes (bytes : UInt64)
  | shouldSnapshot
  | manifest
  | recover

inductive SnapshotAnswer
  /-- `none` is an error -/
  | taken (id : Option UInt64)
  | merged (ok : Bool)
  | added
  | should (yes : Bool)
  | manifest (m : Manifest)
  | recovered (r : Except SnapshotError (Option SnapshotData × List String))

/-- `take_snapshot` or `merge_wal` returned an error. -/
def SnapshotAnswer.Failed : SnapshotAnswer → Prop
  | .taken id => id = none
  | .merged ok => ok = false
  | _ => False

/-- A manager and its directory. -/
structure ManagedDir where
  manager : SnapshotManager
  files : Files

def ManagedDir.call [Bincode SnapshotData] [SerdeJson Manifest] (d : ManagedDir) :
    SnapshotCall → SnapshotAnswer × ManagedDir
  | .takeSnapshot input faults =>
    let (id, manager, files) := d.manager.tryTakeSnapshot d.files input faults
    (.taken id, { manager, files })
  | .mergeWal walFile fault =>
    let (ok, manager, files) := d.manager.tryMergeWal d.files walFile fault
    (.merged ok, { manager, files })
  | .addWalBytes bytes => (.added, { d with manager := d.manager.addWalBytes bytes })
  | .shouldSnapshot => (.should d.manager.shouldSnapshot, d)
  | .manifest => (.manifest d.manager.manifest, d)
  | .recover => (.recovered (d.manager.recover d.files), d)

end LightGraph
