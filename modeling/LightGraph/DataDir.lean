import LightGraph.Lib.Machine
import LightGraph.Snapshot
import LightGraph.Transaction.Maps

/-!
# A data directory in use

The three stores, the snapshot manager and the directory they share. A store's log is flushed
when a call returns; a snapshot is given the stores' contents as lists. What `recover` returns is
meant to be loaded and replayed, which `restore` does with the stores' own replay closures: there
is no code for it in the repository beside the stores' `open`.
-/

set_option autoImplicit false

namespace LightGraph

open Lib

/-! ## Contents -/

def nodesWal : String := "nodes.wal"
def edgesWal : String := "edges.wal"
def propsWal : String := "props.wal"

/-- Nothing in any store. -/
def Maps.empty : Maps := ⟨∅, ∅, ∅⟩

/-- The snapshot loaded into empty stores. -/
def SnapshotData.contents (d : SnapshotData) : Maps :=
  { nodes := FiniteMap.ofList Node.id id d.nodes
    edges := FiniteMap.ofList Edge.id id d.edges
    props := FiniteMap.ofList (fun c => (c.1, c.2.1)) (fun c => { values := c.2.2 })
      d.propColumns }

/-- The lists a snapshot is taken of have every record and every column, and no others. -/
structure SnapshotInput.Lists (input : SnapshotInput) (m : Maps) : Prop where
  nodes : ∀ id n, m.nodes.get id = some n ↔ n ∈ input.nodes ∧ n.id = id
  edges : ∀ id e, m.edges.get id = some e ↔ e ∈ input.edges ∧ e.id = id
  props : ∀ label prop col, m.props.get (label, prop) = some col ↔
    (label, prop, col.values) ∈ input.propColumns

/-- The two agree on what is logged in the file. -/
def Maps.SameAt (m m' : Maps) (walFile : String) : Prop :=
  (walFile = nodesWal → m.nodes = m'.nodes) ∧ (walFile = edgesWal → m.edges = m'.edges) ∧
    (walFile = propsWal → m.props = m'.props)

/-! ## Restoring -/

/-- A replay that starts with these records there. -/
def Replay.over {ρ : Type} (records : FiniteMap UInt64 ρ) : Replay ρ :=
  { records, freeList := [], freeCount := 0, maxId := 0, inserted := 0 }

def PropReplay.over (columns : Columns) : PropReplay := { columns, schemas := ∅ }

section Restore
variable [Bincode Node] [Bincode Edge] [Bincode (Option Value)]

/-- Replay one log over what is there already. -/
def Maps.replayFile (dir : Files) (m : Maps) (walFile : String) : Except IoError Maps :=
  let data := (dir.get walFile).getD []
  if walFile = nodesWal then
    (replayIfAny Replay.onRecord data (Replay.over m.nodes)).map fun st =>
      { m with nodes := st.records }
  else if walFile = edgesWal then
    (replayIfAny Replay.onRecord data (Replay.over m.edges)).map fun st =>
      { m with edges := st.records }
  else if walFile = propsWal then
    (replayIfAny PropReplay.onRecord data (PropReplay.over m.props)).map fun st =>
      { m with props := st.columns }
  else .ok m

/-- Load the snapshot, if there is one, then replay the logs. -/
def Maps.restore (dir : Files) (snapshot : Option SnapshotData) (walFiles : List String) :
    Except IoError Maps :=
  walFiles.foldlM (Maps.replayFile dir) ((snapshot.map SnapshotData.contents).getD Maps.empty)

end Restore

/-! ## The directory and the process on it -/

structure DataDir where
  nodes : NodeStore
  edges : EdgeStore
  props : PropStore
  manager : SnapshotManager
  files : Files
  /-- what the last snapshot was taken of -/
  atSnapshot : Maps

inductive DataDirStep
  | node (op : NodeOp)
  | edge (c : EdgeCall)
  | prop (op : PropOp)
  | takeSnapshot (input : SnapshotInput)
  | mergeWal (walFile : String)
  /-- a new process on the same directory -/
  | reopen

def DataDir.contents (d : DataDir) : Maps :=
  { nodes := d.nodes.records, edges := d.edges.records, props := d.props.columns }

section Persistent
variable [Bincode Node] [Bincode Edge] [Bincode (Option Value)] [Bincode SnapshotData]
  [SerdeJson Manifest]

/-- Open the stores and the manager; a log without its magic is given one. -/
def DataDir.open (files : Files) (atSnapshot : Maps) : Option DataDir :=
  match NodeStore.open ((files.get nodesWal).getD []),
    EdgeStore.open ((files.get edgesWal).getD []),
    PropStore.open ((files.get propsWal).getD []), SnapshotManager.new files with
  | .ok nodes, .ok edges, .ok props, .ok manager =>
    some { nodes, edges, props, manager, atSnapshot,
           files := ((files.put nodesWal nodes.file).put edgesWal edges.file).put propsWal
             props.file }
  | _, _, _, _ => none

def DataDir.step (d : DataDir) : DataDirStep → Option DataDir
  | .node op =>
    let nodes := d.nodes.perform op
    some { d with nodes, files := d.files.put nodesWal nodes.file }
  | .edge c =>
    (EdgeStore.performCall d.edges c).map fun edges =>
      { d with edges, files := d.files.put edgesWal edges.file }
  | .prop op =>
    let props := d.props.perform op
    some { d with props, files := d.files.put propsWal props.file }
  | .takeSnapshot input =>
    let (_, manager, files) := d.manager.takeSnapshot d.files input
    some { d with manager, files, atSnapshot := d.contents }
  | .mergeWal walFile =>
    let (manager, files) := d.manager.mergeWal d.files walFile
    some { d with manager, files }
  | .reopen => DataDir.open d.files d.atSnapshot

/-- The stores are back as they are: what a fresh manager recovers, loaded and replayed. -/
def DataDir.Recovers (d : DataDir) : Prop :=
  ∃ m snapshot walFiles, SnapshotManager.new d.files = .ok m ∧
    m.recover d.files = .ok (snapshot, walFiles) ∧
    Maps.restore d.files snapshot walFiles = .ok d.contents

end Persistent
end LightGraph
