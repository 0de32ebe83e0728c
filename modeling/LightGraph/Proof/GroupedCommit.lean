import LightGraph.Lib.Regroup
import LightGraph.Proof.CommittedEdges
import LightGraph.Transaction.Sessions

/-!
# A commit writes kind by kind

The calls on a transaction come in one order, and `commit` performs them in another: all inserts of
nodes, then all updates, then all deletes, then the edges, then the properties. A node or an edge
does not care as long as it is created at most once and first of all, and that is what the ids a
store hands out are for. Where an id has been handed out twice, what stood between the two
creations counts after them.

`Lib.RecordKind` says when regrouping changes nothing; here the writes of a transaction are taken
apart into the operations on each record.
-/

set_option autoImplicit false

namespace LightGraph

open Lib RecordOp

/-! ## The calls, one by one -/

section Direct
variable [Bincode Node] [Bincode Edge] [Bincode (Option Value)]

/-- The calls applied to the stores at once, each as it comes. -/
def Database.applyDirect (txId : TxId) (db : Database) : List TxCall → Database
  | [] => db
  | c :: calls => ((c.issue db).2.perform txId (c.issue db).1).applyDirect txId calls

end Direct

/-! ## What they do to one record -/

/-- A node under the writes of a transaction. -/
def nodeKind (txId : TxId) : RecordKind Node (List LabelId) where
  update labels n := { n with labels, createdTx := txId }
  delete n := { n with deletedTx := txId }
  update_update _ _ _ := rfl
  delete_delete _ := rfl
  update_delete _ _ := rfl

/-- An edge is not updated. -/
def edgeKind (txId : TxId) : RecordKind Edge Empty where
  update u _ := nomatch u
  delete e := { e with deletedTx := txId }
  update_update u _ _ := nomatch u
  delete_delete _ := rfl
  update_delete u _ := nomatch u

/-- The operation on this node, if it is one. -/
def StoreWrite.nodeOp? (txId : TxId) (id : NodeId) :
    StoreWrite → Option (RecordOp Node (List LabelId))
  | .insertNode id' labels propsRow =>
    if id' = id then some (.insert (Node.new id labels propsRow txId)) else none
  | .updateLabels id' labels => if id' = id then some (.update labels) else none
  | .deleteNode id' => if id' = id then some .delete else none
  | _ => none

def StoreWrite.edgeOp? (txId : TxId) (id : EdgeId) : StoreWrite → Option (RecordOp Edge Empty)
  | .insertEdge id' src dst etype propsRow =>
    if id' = id then some (.insert (Edge.new id src dst etype propsRow txId)) else none
  | .deleteEdge id' => if id' = id then some .delete else none
  | _ => none

def StoreWrite.propOp? : StoreWrite → Option (LabelId × String × UInt32 × Option Value)
  | .insertProp label prop row value => some (label, prop, row, value)
  | _ => none

def nodeOps (txId : TxId) (id : NodeId) (ws : List StoreWrite) :
    List (RecordOp Node (List LabelId)) :=
  ws.filterMap (StoreWrite.nodeOp? txId id)

def edgeOps (txId : TxId) (id : EdgeId) (ws : List StoreWrite) : List (RecordOp Edge Empty) :=
  ws.filterMap (StoreWrite.edgeOp? txId id)

/-- A node that was created is given its last labels, and deleted if it is, behind its last
creation; so is an edge. A deletion by the transaction with the largest id is none. -/
def KeepsOrder (txId : TxId) (ws : List StoreWrite) : Prop :=
  (∀ id n, lastInsert (nodeOps txId id ws) = some n →
    (lastUpdate (since (nodeOps txId id ws))).getD n.labels
        = (lastUpdate (nodeOps txId id ws)).getD n.labels ∧
      (deleted (nodeOps txId id ws) = true →
        deleted (since (nodeOps txId id ws)) = true ∨ txId = maxTxId)) ∧
  ∀ id e, lastInsert (edgeOps txId id ws) = some e →
    deleted (edgeOps txId id ws) = true →
      deleted (since (edgeOps txId id ws)) = true ∨ txId = maxTxId

/-! ## Writes and operations -/

namespace Maps
variable (m : Maps) (txId : TxId)

theorem get_node_write (id : NodeId) (w : StoreWrite) :
    (m.write txId w).nodes.get id
      = ((w.nodeOp? txId id).map ((nodeKind txId).apply (m.nodes.get id))).getD
          (m.nodes.get id) := by
  cases w with
  | insertNode id' labels propsRow =>
    simp only [write, StoreWrite.nodeOp?, FiniteMap.get_alter, eq_comm (a := id)]
    split
    · rename_i h
      rw [h]
      rfl
    · rfl
  | updateLabels id' labels =>
    simp only [write, StoreWrite.nodeOp?, FiniteMap.get_alter, eq_comm (a := id)]
    split
    · rename_i h
      rw [h]
      rfl
    · rfl
  | deleteNode id' =>
    simp only [write, StoreWrite.nodeOp?, FiniteMap.get_alter, eq_comm (a := id)]
    split
    · rename_i h
      rw [h]
      rfl
    · rfl
  | insertEdge id' src dst etype propsRow => rfl
  | deleteEdge id' => rfl
  | insertProp label prop row value => rfl

theorem get_edge_write (id : EdgeId) (w : StoreWrite) :
    (m.write txId w).edges.get id
      = ((w.edgeOp? txId id).map ((edgeKind txId).apply (m.edges.get id))).getD
          (m.edges.get id) := by
  cases w with
  | insertEdge id' src dst etype propsRow =>
    simp only [write, StoreWrite.edgeOp?, FiniteMap.get_alter, eq_comm (a := id)]
    split
    · rename_i h
      rw [h]
      rfl
    · rfl
  | deleteEdge id' =>
    simp only [write, StoreWrite.edgeOp?, FiniteMap.get_alter, eq_comm (a := id)]
    split
    · rename_i h
      rw [h]
      rfl
    · rfl
  | insertNode id' labels propsRow => rfl
  | updateLabels id' labels => rfl
  | deleteNode id' => rfl
  | insertProp label prop row value => rfl

theorem get_nodes_writeAll (id : NodeId) (ws : List StoreWrite) :
    (m.writeAll txId ws).nodes.get id
      = (nodeKind txId).applyAll (m.nodes.get id) (nodeOps txId id ws) :=
  foldl_through (g := fun m => m.nodes.get id) (fun m w => get_node_write m txId id w) ws m

theorem get_edges_writeAll (id : EdgeId) (ws : List StoreWrite) :
    (m.writeAll txId ws).edges.get id
      = (edgeKind txId).applyAll (m.edges.get id) (edgeOps txId id ws) :=
  foldl_through (g := fun m => m.edges.get id) (fun m w => get_edge_write m txId id w) ws m

theorem props_writeAll (ws : List StoreWrite) :
    (m.writeAll txId ws).props
      = (ws.filterMap StoreWrite.propOp?).foldl
          (fun columns p => columns.putCell p.1 p.2.1 p.2.2.1 p.2.2.2) m.props :=
  foldl_through (g := Maps.props) (fun m w => by cases w <;> rfl) ws m

end Maps

/-! ## The phases of a commit -/

/-- The loops of phase 2 of `commit`. -/
inductive WriteLoop
  | nodeInserts
  | nodeUpdates
  | nodeDeletes
  | edgeInserts
  | edgeDeletes
  | propWrites
  deriving DecidableEq

/-- The loop that performs the write. -/
def StoreWrite.loop : StoreWrite → WriteLoop
  | .insertNode _ _ _ => .nodeInserts
  | .updateLabels _ _ => .nodeUpdates
  | .deleteNode _ => .nodeDeletes
  | .insertEdge _ _ _ _ _ => .edgeInserts
  | .deleteEdge _ => .edgeDeletes
  | .insertProp _ _ _ _ => .propWrites

/-- The writes of one loop. -/
def Transaction.writesOf (tx : Transaction) : WriteLoop → List StoreWrite
  | .nodeInserts => tx.nodeInserts.map fun (id, labels, propsRow) => .insertNode id labels propsRow
  | .nodeUpdates => tx.nodeUpdates.map fun (id, labels) => .updateLabels id labels
  | .nodeDeletes => tx.nodeDeletes.map .deleteNode
  | .edgeInserts => tx.edgeInserts.map
      fun (id, src, dst, etype, propsRow) => .insertEdge id src dst etype propsRow
  | .edgeDeletes => tx.edgeDeletes.map .deleteEdge
  | .propWrites => tx.propWrites.map
      fun (label, prop, row, value) => .insertProp label prop row value

theorem Transaction.writes_eq (tx : Transaction) :
    tx.writes = tx.writesOf .nodeInserts ++ tx.writesOf .nodeUpdates ++ tx.writesOf .nodeDeletes
      ++ tx.writesOf .edgeInserts ++ tx.writesOf .edgeDeletes ++ tx.writesOf .propWrites := rfl

/-- A call puts its write behind those of the same loop. -/
theorem writesOf_apply (tx : Transaction) (db : Database) (c : TxCall) (k : WriteLoop) :
    (TxCall.apply (tx, db) c).1.writesOf k
      = tx.writesOf k ++ [(c.issue db).1].filter (fun w => w.loop = k) := by
  cases c <;> cases k <;>
    simp [TxCall.apply, TxCall.issue, Transaction.writesOf, StoreWrite.loop,
      Transaction.createNode, Transaction.updateNodeLabels, Transaction.deleteNode,
      Transaction.createEdge, Transaction.deleteEdge, Transaction.setProp]

theorem apply_db (tx : Transaction) (db : Database) (c : TxCall) :
    (TxCall.apply (tx, db) c).2 = (c.issue db).2 := by
  cases c with
  | createNode labels propsRow => rfl
  | updateNodeLabels id labels => rfl
  | deleteNode id => rfl
  | createEdge src dst etype propsRow => rfl
  | deleteEdge id => rfl
  | setProp label prop row value => rfl

/-- **What the buffers hold**: for each loop its writes, in the order they were issued. -/
theorem writesOf_foldl_apply (k : WriteLoop) (calls : List TxCall) : ∀ tx db,
    (calls.foldl TxCall.apply (tx, db)).1.writesOf k
      = tx.writesOf k ++ (db.issued calls).filter (fun w => w.loop = k) := by
  induction calls with
  | nil => exact fun tx db => (List.append_nil _).symm
  | cons c calls ih =>
    intro tx db
    have hpair : TxCall.apply (tx, db) c = ((TxCall.apply (tx, db) c).1, (c.issue db).2) := by
      rw [← apply_db tx db c]
    rw [List.foldl_cons, hpair, ih, writesOf_apply, List.append_assoc, ← List.filter_append]
    rfl

/-- The writes of the calls, loop by loop. -/
def grouped (ws : List StoreWrite) : List StoreWrite :=
  ws.filter (fun w => w.loop = .nodeInserts) ++ ws.filter (fun w => w.loop = .nodeUpdates)
    ++ ws.filter (fun w => w.loop = .nodeDeletes) ++ ws.filter (fun w => w.loop = .edgeInserts)
    ++ ws.filter (fun w => w.loop = .edgeDeletes) ++ ws.filter (fun w => w.loop = .propWrites)

theorem writes_prepare (db : Database) (calls : List TxCall) :
    (db.prepare ⟨calls, true⟩).1.writes = grouped (db.beginWrite.2.issued calls) := by
  have hbuffers := fun k => writesOf_foldl_apply k calls db.beginWrite.1 db.beginWrite.2
  have hempty : ∀ k, db.beginWrite.1.writesOf k = [] := by
    intro k
    cases k <;> rfl
  simp only [hempty, List.nil_append] at hbuffers
  show (calls.foldl TxCall.apply (db.beginWrite.1, db.beginWrite.2)).1.writes = _
  rw [Transaction.writes_eq]
  simp only [hbuffers]
  rfl

/-! ## Grouped writes, record by record -/

section Grouped
variable (txId : TxId) (ws : List StoreWrite)

/-- Which loop the operation of a node is performed in. -/
theorem loop_of_nodeOp {id : NodeId} {w : StoreWrite} {op : RecordOp Node (List LabelId)}
    (h : w.nodeOp? txId id = some op) :
    (decide (w.loop = .nodeInserts) = op.isInsert ∧ decide (w.loop = .nodeUpdates) = op.isUpdate ∧
      decide (w.loop = .nodeDeletes) = op.isDelete) ∧
    w.loop ≠ .edgeInserts ∧ w.loop ≠ .edgeDeletes ∧ w.loop ≠ .propWrites := by
  cases w with
  | insertNode id' labels propsRow =>
    obtain ⟨-, h⟩ := Option.ite_none_right_eq_some.mp h
    obtain rfl := Option.some.inj h
    exact ⟨⟨rfl, rfl, rfl⟩, nofun, nofun, nofun⟩
  | updateLabels id' labels =>
    obtain ⟨-, h⟩ := Option.ite_none_right_eq_some.mp h
    obtain rfl := Option.some.inj h
    exact ⟨⟨rfl, rfl, rfl⟩, nofun, nofun, nofun⟩
  | deleteNode id' =>
    obtain ⟨-, h⟩ := Option.ite_none_right_eq_some.mp h
    obtain rfl := Option.some.inj h
    exact ⟨⟨rfl, rfl, rfl⟩, nofun, nofun, nofun⟩
  | insertEdge id' src dst etype propsRow => exact absurd h nofun
  | deleteEdge id' => exact absurd h nofun
  | insertProp label prop row value => exact absurd h nofun

theorem loop_of_edgeOp {id : EdgeId} {w : StoreWrite} {op : RecordOp Edge Empty}
    (h : w.edgeOp? txId id = some op) :
    (decide (w.loop = .edgeInserts) = op.isInsert ∧ decide (w.loop = .edgeDeletes) = op.isDelete) ∧
    w.loop ≠ .nodeInserts ∧ w.loop ≠ .nodeUpdates ∧ w.loop ≠ .nodeDeletes ∧
    w.loop ≠ .propWrites := by
  cases w with
  | insertEdge id' src dst etype propsRow =>
    obtain ⟨-, h⟩ := Option.ite_none_right_eq_some.mp h
    obtain rfl := Option.some.inj h
    exact ⟨⟨rfl, rfl⟩, nofun, nofun, nofun, nofun⟩
  | deleteEdge id' =>
    obtain ⟨-, h⟩ := Option.ite_none_right_eq_some.mp h
    obtain rfl := Option.some.inj h
    exact ⟨⟨rfl, rfl⟩, nofun, nofun, nofun, nofun⟩
  | insertNode id' labels propsRow => exact absurd h nofun
  | updateLabels id' labels => exact absurd h nofun
  | deleteNode id' => exact absurd h nofun
  | insertProp label prop row value => exact absurd h nofun

/-- A loop that performs none of the operations that are looked for. -/
theorem filterMap_loop_nil {β : Type} {f : StoreWrite → Option β} {k : WriteLoop}
    (h : ∀ w b, f w = some b → w.loop ≠ k) :
    (ws.filter fun w => w.loop = k).filterMap f = [] := by
  apply filterMap_filter_nil
  intro w hw
  cases hf : f w with
  | none => rfl
  | some b => exact absurd (by simpa using hw) (h w b hf)

theorem nodeOps_grouped (id : NodeId) :
    nodeOps txId id (grouped ws) = regroup (nodeOps txId id ws) := by
  rw [nodeOps, grouped]
  simp only [List.filterMap_append]
  rw [filterMap_filter_eq (fun w op h => (loop_of_nodeOp txId h).1.1),
    filterMap_filter_eq (fun w op h => (loop_of_nodeOp txId h).1.2.1),
    filterMap_filter_eq (fun w op h => (loop_of_nodeOp txId h).1.2.2),
    filterMap_loop_nil ws (fun w op h => (loop_of_nodeOp txId h).2.1),
    filterMap_loop_nil ws (fun w op h => (loop_of_nodeOp txId h).2.2.1),
    filterMap_loop_nil ws (fun w op h => (loop_of_nodeOp txId h).2.2.2),
    List.append_nil, List.append_nil, List.append_nil]
  rfl

theorem edgeOps_grouped (id : EdgeId) :
    edgeOps txId id (grouped ws) = regroup (edgeOps txId id ws) := by
  have hupdates : (edgeOps txId id ws).filter isUpdate = [] := by
    apply List.filter_eq_nil_iff.mpr
    intro op _
    cases op with
    | insert e => simp [isUpdate]
    | update u => exact u.elim
    | delete => simp [isUpdate]
  rw [regroup, hupdates, List.append_nil, edgeOps, grouped]
  simp only [List.filterMap_append]
  rw [filterMap_filter_eq (fun w op h => (loop_of_edgeOp txId h).1.1),
    filterMap_filter_eq (fun w op h => (loop_of_edgeOp txId h).1.2),
    filterMap_loop_nil ws (fun w op h => (loop_of_edgeOp txId h).2.1),
    filterMap_loop_nil ws (fun w op h => (loop_of_edgeOp txId h).2.2.1),
    filterMap_loop_nil ws (fun w op h => (loop_of_edgeOp txId h).2.2.2.1),
    filterMap_loop_nil ws (fun w op h => (loop_of_edgeOp txId h).2.2.2.2)]
  simp only [List.append_nil, List.nil_append]
  rfl

theorem propOps_grouped :
    (grouped ws).filterMap StoreWrite.propOp? = ws.filterMap StoreWrite.propOp? := by
  have hloop : ∀ w p, StoreWrite.propOp? w = some p → w.loop = .propWrites := by
    intro w p h
    cases w with
    | insertProp label prop row value => rfl
    | insertNode id labels propsRow => exact absurd h nofun
    | updateLabels id labels => exact absurd h nofun
    | deleteNode id => exact absurd h nofun
    | insertEdge id src dst etype propsRow => exact absurd h nofun
    | deleteEdge id => exact absurd h nofun
  have hother : ∀ k, k ≠ .propWrites →
      (ws.filter fun w => w.loop = k).filterMap StoreWrite.propOp? = [] :=
    fun k hk => filterMap_loop_nil ws fun w p h heq => hk (heq.symm.trans (hloop w p h))
  rw [grouped]
  simp only [List.filterMap_append]
  rw [hother .nodeInserts nofun, hother .nodeUpdates nofun, hother .nodeDeletes nofun,
    hother .edgeInserts nofun, hother .edgeDeletes nofun, filterMap_filter_self]
  · rfl
  · intro w hw
    cases hp : w.propOp? with
    | none => rfl
    | some p => exact absurd (hloop w p hp) (by simpa using hw)

end Grouped

/-! ## The ids are the same -/

/-- The stores hand out the same ids. -/
structure SameIds (db db' : Database) : Prop where
  nodeFree : db.nodes.freeList = db'.nodes.freeList
  nodeNext : db.nodes.nextId = db'.nodes.nextId
  edgeFree : db.edges.freeList = db'.edges.freeList
  edgeNext : db.edges.nextId = db'.edges.nextId

theorem allocId_same {ρ : Type} {s s' : RecordStore ρ} (hfree : s.freeList = s'.freeList)
    (hnext : s.nextId = s'.nextId) :
    s.allocId.1 = s'.allocId.1 ∧ s.allocId.2.freeList = s'.allocId.2.freeList ∧
      s.allocId.2.nextId = s'.allocId.2.nextId := by
  unfold RecordStore.allocId
  rw [hfree, hnext]
  cases s'.freeList with
  | nil => exact ⟨rfl, rfl, rfl⟩
  | cons id freeList => exact ⟨rfl, rfl, rfl⟩

theorem SameIds.issue {db db' : Database} (h : SameIds db db') (c : TxCall) :
    (c.issue db).1 = (c.issue db').1 ∧ SameIds (c.issue db).2 (c.issue db').2 := by
  cases c with
  | createNode labels propsRow =>
    obtain ⟨hid, hfree, hnext⟩ := allocId_same h.nodeFree h.nodeNext
    exact ⟨congrArg (StoreWrite.insertNode · labels propsRow) hid, hfree, hnext, h.edgeFree,
      h.edgeNext⟩
  | createEdge src dst etype propsRow =>
    obtain ⟨hid, hfree, hnext⟩ := allocId_same h.edgeFree h.edgeNext
    exact ⟨congrArg (StoreWrite.insertEdge · src dst etype propsRow) hid, h.nodeFree, h.nodeNext,
      hfree, hnext⟩
  | updateNodeLabels id labels => exact ⟨rfl, h⟩
  | deleteNode id => exact ⟨rfl, h⟩
  | deleteEdge id => exact ⟨rfl, h⟩
  | setProp label prop row value => exact ⟨rfl, h⟩

theorem maps_issue (db : Database) (c : TxCall) : (c.issue db).2.maps = db.maps := by
  cases c with
  | createNode labels propsRow =>
    exact congrArg (fun nodes => { db.maps with nodes }) (RecordStore.allocId_records _)
  | createEdge src dst etype propsRow =>
    exact congrArg (fun edges => { db.maps with edges }) (RecordStore.allocId_records _)
  | updateNodeLabels id labels => rfl
  | deleteNode id => rfl
  | deleteEdge id => rfl
  | setProp label prop row value => rfl

section Direct
variable [Bincode Node] [Bincode Edge] [Bincode (Option Value)]

/-- A write takes no id and frees none. -/
theorem SameIds.perform {db db' : Database} (h : SameIds db db') (txId : TxId) (w : StoreWrite) :
    SameIds (db.perform txId w) db' := by
  have hinsert : ∀ {ρ : Type} [Bincode ρ] (s : RecordStore ρ) (id : UInt64) (r : ρ),
      (s.insertWithId id r).freeList = s.freeList ∧ (s.insertWithId id r).nextId = s.nextId :=
    fun s id r => ⟨RecordStore.walInsert_freeList _ id r, RecordStore.walInsert_nextId _ id r⟩
  cases w with
  | insertNode id labels propsRow =>
    obtain ⟨hfree, hnext⟩ := hinsert db.nodes.toRecordStore id (Node.new id labels propsRow txId)
    exact ⟨hfree.trans h.nodeFree, hnext.trans h.nodeNext, h.edgeFree, h.edgeNext⟩
  | updateLabels id labels =>
    exact ⟨(RecordStore.modify_freeList _ id _).trans h.nodeFree,
      (RecordStore.modify_nextId _ id _).trans h.nodeNext, h.edgeFree, h.edgeNext⟩
  | deleteNode id =>
    exact ⟨(RecordStore.modify_freeList _ id _).trans h.nodeFree,
      (RecordStore.modify_nextId _ id _).trans h.nodeNext, h.edgeFree, h.edgeNext⟩
  | insertEdge id src dst etype propsRow =>
    obtain ⟨hfree, hnext⟩ := hinsert db.edges id (Edge.new id src dst etype propsRow txId)
    exact ⟨h.nodeFree, h.nodeNext, hfree.trans h.edgeFree, hnext.trans h.edgeNext⟩
  | deleteEdge id =>
    exact ⟨h.nodeFree, h.nodeNext, (RecordStore.modify_freeList _ id _).trans h.edgeFree,
      (RecordStore.modify_nextId _ id _).trans h.edgeNext⟩
  | insertProp label prop row value => exact ⟨h.nodeFree, h.nodeNext, h.edgeFree, h.edgeNext⟩

/-- The calls applied at once perform the writes that are issued, in that order. -/
theorem maps_applyDirect (txId : TxId) (calls : List TxCall) : ∀ {db db' : Database},
    SameIds db db' →
      (db.applyDirect txId calls).maps = db.maps.writeAll txId (db'.issued calls) := by
  induction calls with
  | nil => exact fun _ => rfl
  | cons c calls ih =>
    intro db db' h
    obtain ⟨hw, hids⟩ := h.issue c
    rw [Database.applyDirect, ih (hids.perform txId _), Database.perform_maps, maps_issue, hw]
    rfl

end Direct

/-! ## When the records come out alike -/

/-- A deletion that is not among the later ones shows, unless it deletes nothing. -/
theorem deletedTx_eq_iff {txId : TxId} {d later : Bool} (h : later = true → d = true) :
    (if d then txId else maxTxId) = (if later then txId else maxTxId) ↔
      (d = true → later = true ∨ txId = maxTxId) := by
  cases d with
  | false =>
    cases later with
    | false => simp
    | true => exact absurd (h rfl) (by simp)
  | true =>
    cases later with
    | false => simp
    | true => simp

theorem node_amend_eq_iff {txId : TxId} {id : NodeId} {ws : List StoreWrite} {n : Node}
    (hn : lastInsert (nodeOps txId id ws) = some n) :
    (nodeKind txId).amend (lastUpdate (nodeOps txId id ws)) (deleted (nodeOps txId id ws)) n
        = (nodeKind txId).amend (lastUpdate (since (nodeOps txId id ws)))
            (deleted (since (nodeOps txId id ws))) n ↔
      (lastUpdate (since (nodeOps txId id ws))).getD n.labels
          = (lastUpdate (nodeOps txId id ws)).getD n.labels ∧
        (deleted (nodeOps txId id ws) = true →
          deleted (since (nodeOps txId id ws)) = true ∨ txId = maxTxId) := by
  -- the node as it was created
  obtain ⟨w, -, hw⟩ := List.mem_filterMap.mp (mem_of_lastInsert hn)
  have hnew : n.createdTx = txId ∧ n.deletedTx = maxTxId := by
    cases w with
    | insertNode id' labels propsRow =>
      obtain ⟨-, h⟩ := Option.ite_none_right_eq_some.mp hw
      obtain rfl := RecordOp.insert.inj (Option.some.inj h)
      exact ⟨rfl, rfl⟩
    | updateLabels id' labels =>
      obtain ⟨-, h⟩ := Option.ite_none_right_eq_some.mp hw
      exact absurd h nofun
    | deleteNode id' =>
      obtain ⟨-, h⟩ := Option.ite_none_right_eq_some.mp hw
      exact absurd h nofun
    | insertEdge id' src dst etype propsRow => exact absurd hw nofun
    | deleteEdge id' => exact absurd hw nofun
    | insertProp label prop row value => exact absurd hw nofun
  have hamend : ∀ (u : Option (List LabelId)) (d : Bool), (nodeKind txId).amend u d n
      = { n with labels := u.getD n.labels, deletedTx := if d then txId else maxTxId } := by
    intro u d
    obtain ⟨id', labels, firstOut, firstIn, propsRow, createdTx, deletedTx⟩ := n
    obtain ⟨rfl, rfl⟩ := hnew
    cases u with
    | none => cases d <;> rfl
    | some u => cases d <;> rfl
  rw [hamend, hamend, ← deletedTx_eq_iff deleted_of_since]
  constructor
  · intro h
    exact ⟨(congrArg Node.labels h).symm, congrArg Node.deletedTx h⟩
  · rintro ⟨hlabels, hdeleted⟩
    rw [hlabels, hdeleted]

theorem edge_amend_eq_iff {txId : TxId} {id : EdgeId} {ws : List StoreWrite} {e : Edge}
    (he : lastInsert (edgeOps txId id ws) = some e) :
    (edgeKind txId).amend (lastUpdate (edgeOps txId id ws)) (deleted (edgeOps txId id ws)) e
        = (edgeKind txId).amend (lastUpdate (since (edgeOps txId id ws)))
            (deleted (since (edgeOps txId id ws))) e ↔
      (deleted (edgeOps txId id ws) = true →
        deleted (since (edgeOps txId id ws)) = true ∨ txId = maxTxId) := by
  obtain ⟨w, -, hw⟩ := List.mem_filterMap.mp (mem_of_lastInsert he)
  have hnew : e.deletedTx = maxTxId := by
    cases w with
    | insertEdge id' src dst etype propsRow =>
      obtain ⟨-, h⟩ := Option.ite_none_right_eq_some.mp hw
      obtain rfl := RecordOp.insert.inj (Option.some.inj h)
      rfl
    | deleteEdge id' =>
      obtain ⟨-, h⟩ := Option.ite_none_right_eq_some.mp hw
      exact absurd h nofun
    | insertNode id' labels propsRow => exact absurd hw nofun
    | updateLabels id' labels => exact absurd hw nofun
    | deleteNode id' => exact absurd hw nofun
    | insertProp label prop row value => exact absurd hw nofun
  have hamend : ∀ (u : Option Empty) (d : Bool), (edgeKind txId).amend u d e
      = { e with deletedTx := if d then txId else maxTxId } := by
    intro u d
    cases u with
    | none =>
      cases d with
      | false => exact congrArg (fun deletedTx => { e with deletedTx }) hnew
      | true => rfl
    | some u => exact u.elim
  rw [hamend, hamend, ← deletedTx_eq_iff deleted_of_since]
  constructor
  · exact fun h => congrArg Edge.deletedTx h
  · intro hdeleted
    rw [hdeleted]

/-- **When regrouping the writes changes nothing.** -/
theorem writeAll_grouped_iff (m : Maps) (txId : TxId) (ws : List StoreWrite) :
    m.writeAll txId (grouped ws) = m.writeAll txId ws ↔ KeepsOrder txId ws := by
  have hnodes : ∀ id,
      (m.writeAll txId (grouped ws)).nodes.get id = (m.writeAll txId ws).nodes.get id ↔
      ∀ n, lastInsert (nodeOps txId id ws) = some n →
        (lastUpdate (since (nodeOps txId id ws))).getD n.labels
            = (lastUpdate (nodeOps txId id ws)).getD n.labels ∧
          (deleted (nodeOps txId id ws) = true →
            deleted (since (nodeOps txId id ws)) = true ∨ txId = maxTxId) := by
    intro id
    rw [Maps.get_nodes_writeAll, Maps.get_nodes_writeAll, nodeOps_grouped,
      RecordKind.regroup_eq_iff]
    exact forall_congr' fun n => forall_congr' fun hn => node_amend_eq_iff hn
  have hedges : ∀ id,
      (m.writeAll txId (grouped ws)).edges.get id = (m.writeAll txId ws).edges.get id ↔
      ∀ e, lastInsert (edgeOps txId id ws) = some e → deleted (edgeOps txId id ws) = true →
        deleted (since (edgeOps txId id ws)) = true ∨ txId = maxTxId := by
    intro id
    rw [Maps.get_edges_writeAll, Maps.get_edges_writeAll, edgeOps_grouped,
      RecordKind.regroup_eq_iff]
    exact forall_congr' fun e => forall_congr' fun he => edge_amend_eq_iff he
  have hprops : (m.writeAll txId (grouped ws)).props = (m.writeAll txId ws).props := by
    rw [Maps.props_writeAll, Maps.props_writeAll, propOps_grouped]
  constructor
  · intro h
    exact ⟨fun id => (hnodes id).mp (by rw [h]), fun id => (hedges id).mp (by rw [h])⟩
  · rintro ⟨hn, he⟩
    exact Maps.ext (FiniteMap.ext fun id => (hnodes id).mpr (hn id))
      (FiniteMap.ext fun id => (hedges id).mpr (he id)) hprops

/-! ## Ids that are handed out once -/

/-- The write creates its record. -/
def StoreWrite.Creates : StoreWrite → Prop
  | .insertNode _ _ _ => True
  | .insertEdge _ _ _ _ _ => True
  | _ => False

/-- Nothing is written to a record before it is created. -/
def CreatedFirst (ws : List StoreWrite) : Prop :=
  ∀ before w after, ws = before ++ w :: after → w.Creates → ∀ w' ∈ before, w'.cell ≠ w.cell

/-- Then an insert is the first operation on its record, and the only insert. -/
theorem CreatedFirst.since_eq {ρ υ : Type} {ws : List StoreWrite} (h : CreatedFirst ws) {c : Cell}
    {f : StoreWrite → Option (RecordOp ρ υ)} (hcell : ∀ w op, f w = some op → w.cell = c)
    (hcreates : ∀ w r, f w = some (.insert r) → w.Creates) {r : ρ}
    (hr : lastInsert (ws.filterMap f) = some r) :
    ∃ r', ws.filterMap f = .insert r' :: since (ws.filterMap f) := by
  obtain ⟨w, hw, hf⟩ := List.mem_filterMap.mp (mem_of_lastInsert hr)
  obtain ⟨before, after, rfl⟩ := List.append_of_mem hw
  have hbefore : before.filterMap f = [] := by
    refine List.filterMap_eq_nil_iff.mpr fun w' hw' => ?_
    cases hf' : f w' with
    | none => rfl
    | some op =>
      exact absurd ((hcell w' op hf').trans (hcell w _ hf).symm)
        (h before w after rfl (hcreates w r hf) w' hw')
  have hafter : ∀ op ∈ after.filterMap f, op.isInsert = false := by
    intro op hop
    obtain ⟨w', hw', hf'⟩ := List.mem_filterMap.mp hop
    cases op with
    | insert r' =>
      obtain ⟨mid, last, rfl⟩ := List.append_of_mem hw'
      exact absurd ((hcell w _ hf).trans (hcell w' _ hf').symm)
        (h (before ++ w :: mid) w' last (by simp) (hcreates w' r' hf') w (by simp))
    | update u => rfl
    | delete => rfl
  rw [List.filterMap_append, hbefore, List.nil_append, List.filterMap_cons, hf]
  exact ⟨r, by rw [since_insert_cons hafter]⟩

/-- Ids handed out once, and not named before, keep the order. -/
theorem CreatedFirst.keepsOrder {ws : List StoreWrite} (h : CreatedFirst ws) (txId : TxId) :
    KeepsOrder txId ws := by
  constructor
  · intro id n hn
    obtain ⟨n', heq⟩ := h.since_eq (c := .node id) (f := StoreWrite.nodeOp? txId id)
      (fun w op hw => by
        cases w <;> simp_all [StoreWrite.nodeOp?, StoreWrite.cell])
      (fun w r hw => by
        cases w <;> simp_all [StoreWrite.nodeOp?, StoreWrite.Creates]) hn
    have hops : nodeOps txId id ws = .insert n' :: since (nodeOps txId id ws) := heq
    generalize since (nodeOps txId id ws) = later at hops
    rw [hops]
    exact ⟨rfl, Or.inl⟩
  · intro id e he
    obtain ⟨e', heq⟩ := h.since_eq (c := .edge id) (f := StoreWrite.edgeOp? txId id)
      (fun w op hw => by
        cases w <;> simp_all [StoreWrite.edgeOp?, StoreWrite.cell])
      (fun w r hw => by
        cases w <;> simp_all [StoreWrite.edgeOp?, StoreWrite.Creates]) he
    have hops : edgeOps txId id ws = .insert e' :: since (edgeOps txId id ws) := heq
    generalize since (edgeOps txId id ws) = later at hops
    rw [hops]
    exact Or.inl

section Persistent
variable [Bincode Node] [Bincode Edge] [Bincode (Option Value)]

theorem maps_committed {db db' : Database} {calls : List TxCall}
    (hrun : db.runTx ⟨calls, true⟩ = some db') :
    db'.maps = db.maps.writeAll db.beginWrite.1.txId (grouped (db.beginWrite.2.issued calls)) := by
  obtain ⟨-, -, htxId, -, -⟩ := Database.prepare_same db ⟨calls, true⟩
  rw [Database.maps_of_runTx rfl hrun, writes_prepare, htxId]
  rfl

theorem maps_direct (db : Database) (calls : List TxCall) :
    (db.beginWrite.2.applyDirect db.beginWrite.1.txId calls).maps
      = db.maps.writeAll db.beginWrite.1.txId (db.beginWrite.2.issued calls) := by
  have hids : SameIds db.beginWrite.2 db.beginWrite.2 := ⟨rfl, rfl, rfl, rfl⟩
  exact maps_applyDirect _ calls hids

/-- **When a commit and the order of the calls agree.** A transaction that has run alone and
committed has left in the stores what its calls leave when each is applied at once. -/
theorem grouped_commit_iff (db db' : Database) (calls : List TxCall)
    (hrun : db.runTx ⟨calls, true⟩ = some db') :
    db'.maps = (db.beginWrite.2.applyDirect db.beginWrite.1.txId calls).maps ↔
      KeepsOrder db.beginWrite.1.txId (db.beginWrite.2.issued calls) := by
  rw [maps_committed hrun, maps_direct]
  exact writeAll_grouped_iff db.maps _ _

end Persistent

/-- A new node whose labels are changed twice, deleted last. -/
theorem grouped_commit_iff_new :
    let calls : List TxCall :=
      [.createNode [1] 0, .updateNodeLabels 0 [2], .updateNodeLabels 0 [3], .deleteNode 0]
    ∃ db', Database.memory.runTx ⟨calls, true⟩ = some db' ∧
      db'.maps = (Database.memory.beginWrite.2.applyDirect 1 calls).maps := by
  refine ⟨_, rfl, (grouped_commit_iff Database.memory _ _ rfl).mpr (CreatedFirst.keepsOrder ?_ _)⟩
  -- only the first write creates
  intro before w after hsplit hw
  have hlist : [.insertNode 0 [1] 0, .updateLabels 0 [2], .updateLabels 0 [3], .deleteNode 0]
      = before ++ w :: after := hsplit
  cases before with
  | nil => exact fun w' hw' => absurd hw' List.not_mem_nil
  | cons a before =>
    obtain ⟨-, hlater⟩ := List.cons_eq_cons.mp hlist
    have hmem : w ∈ [.updateLabels 0 [2], .updateLabels 0 [3], .deleteNode 0] := by
      rw [hlater]
      exact List.mem_append_right _ List.mem_cons_self
    simp only [List.mem_cons, List.not_mem_nil, or_false] at hmem
    rcases hmem with rfl | rfl | rfl
    · exact hw.elim
    · exact hw.elim
    · exact hw.elim

/-- No free id is present in its store. -/
def Database.FreeIdsAbsent (db : Database) : Prop :=
  (∀ id ∈ db.nodes.freeList, db.nodes.get id = none) ∧
    ∀ id ∈ db.edges.freeList, db.edges.get id = none

/-- The writes update and delete what is in the stores or was created before. -/
def Database.NamesKnown (db : Database) (ws : List StoreWrite) : Prop :=
  ∀ before w after, ws = before ++ w :: after → w.Creates ∨
    (∃ label prop row value, w = .insertProp label prop row value) ∨
    (∃ id, w.cell = .node id ∧ (db.nodes.get id).isSome = true) ∨
    (∃ id, w.cell = .edge id ∧ (db.edges.get id).isSome = true) ∨
    ∃ w' ∈ before, w'.Creates ∧ w'.cell = w.cell

/-- Twice an id was freed, and `open` has put it into the free list for each time. -/
def freedTwice : NodeStore :=
  [.insertNode [] 0 1, .hardDelete 0, .insertNode [] 0 2, .hardDelete 0].foldl NodeStore.perform
    NodeStore.fresh

/-- A transaction that is given that id twice. -/
def recycledCalls : List TxCall := [.createNode [1] 0, .updateNodeLabels 0 [5], .createNode [2] 0]

theorem grouped_commit_misorders :
    ¬ ∀ (dir : Directory) (db db' : Database) (calls : List TxCall), Database.open dir = .ok db →
      db.FreeIdsAbsent → db.NamesKnown (db.beginWrite.2.issued calls) →
      db.runTx ⟨calls, true⟩ = some db' →
      db'.maps = (db.beginWrite.2.applyDirect db.beginWrite.1.txId calls).maps := by
  intro h
  have hfile : LogHolds freedTwice.file ([] ++ freedTwice.history) :=
    (NodeStore.loggedCalls.synced (NodeStore.open_synced LogHolds.empty NodeStore.open_nil).1
      _).logHolds (by decide)
  rw [List.nil_append] at hfile
  obtain ⟨nodes, hnodes, hrecords, -, hfree, -⟩ := NodeStore.open_eq hfile
  have hzero : (Replay.ofLog freedTwice.history : Replay Node).freeList = [0, 0] := by decide
  have hempty : freedTwice.history.foldl applyRecord (∅ : FiniteMap NodeId Node) = ∅ := by decide
  rw [hzero] at hfree
  rw [hempty] at hrecords
  let db : Database := { Database.fresh with nodes }
  have hopen : Database.open ⟨freedTwice.file, [], []⟩ = .ok db := by
    rw [Database.open, hnodes]
    rfl
  have hissued : db.beginWrite.2.issued recycledCalls
      = [.insertNode 0 [1] 0, .updateLabels 0 [5], .insertNode 0 [2] 0] := by
    simp [db, recycledCalls, Database.issued, TxCall.issue, Database.beginWrite,
      NodeStore.allocIdDirect, RecordStore.allocId, hfree]
  have hidle : db.Idle := rfl
  obtain ⟨m, -, hrun⟩ := Database.runTx_eq hidle ⟨recycledCalls, true⟩
  have hmaps := h _ db _ recycledCalls hopen ?_ ?_ hrun
  · rw [maps_committed hrun, maps_direct, writeAll_grouped_iff, hissued] at hmaps
    have hlabels : ([2] : List LabelId) = [5] := (hmaps.1 0 (Node.new 0 [2] 0 1) rfl).1
    exact absurd hlabels (by decide)
  · refine ⟨fun id _ => ?_, fun id hid => absurd hid List.not_mem_nil⟩
    show nodes.records.get id = none
    rw [hrecords, FiniteMap.get_empty]
  · rw [hissued]
    intro before w after hsplit
    rcases before with _ | ⟨a, _ | ⟨b, _ | ⟨c, before⟩⟩⟩
    · obtain ⟨rfl, -⟩ := List.cons_eq_cons.mp hsplit
      exact .inl trivial
    · obtain ⟨hcreated, hsplit⟩ := List.cons_eq_cons.mp hsplit
      obtain ⟨rfl, -⟩ := List.cons_eq_cons.mp hsplit
      rw [← hcreated]
      exact .inr (.inr (.inr (.inr ⟨_, List.mem_cons_self, trivial, rfl⟩)))
    · obtain ⟨-, hsplit⟩ := List.cons_eq_cons.mp hsplit
      obtain ⟨-, hsplit⟩ := List.cons_eq_cons.mp hsplit
      obtain ⟨rfl, -⟩ := List.cons_eq_cons.mp hsplit
      exact .inl trivial
    · have hlen := congrArg List.length hsplit
      simp only [List.length_cons, List.length_append, List.length_nil] at hlen
      omega

end LightGraph
