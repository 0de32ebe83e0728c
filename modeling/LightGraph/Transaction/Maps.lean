import LightGraph.Transaction.Database

/-!
# What the writes of a transaction mean

Free ids, row counters and logs aside, a database is three maps, and a store write is a change
of one cell of one of them. `Maps.write` says which, without a word about how the stores do it;
`Database.perform_maps` is the refinement: a database's maps change by the meaning of the write
and by nothing else.

The cells are what two writes can be at odds over. Writes of different cells commute
(`Maps.write_comm`), rows of one column included: a column grows for either, and the longer one
wins.
-/

set_option autoImplicit false

namespace LightGraph

open Lib

/-- What readers can reach. -/
@[ext] structure Maps where
  nodes : FiniteMap NodeId Node
  edges : FiniteMap EdgeId Edge
  props : Columns

/-- What a store write changes. -/
inductive Cell
  | node (id : NodeId)
  | edge (id : EdgeId)
  | prop (label : LabelId) (prop : String) (row : UInt32)
  deriving DecidableEq

def StoreWrite.cell : StoreWrite → Cell
  | .insertNode id _ _ => .node id
  | .updateLabels id _ => .node id
  | .deleteNode id => .node id
  | .insertEdge id _ _ _ _ => .edge id
  | .deleteEdge id => .edge id
  | .insertProp label prop row _ => .prop label prop row

namespace Maps

/-- The meaning of a write by the transaction `txId`. An update or a delete of an absent record
is nothing. -/
def write (txId : TxId) (m : Maps) : StoreWrite → Maps
  | .insertNode id labels propsRow =>
    { m with nodes := m.nodes.alter id fun _ => some (Node.new id labels propsRow txId) }
  | .updateLabels id labels =>
    { m with nodes := m.nodes.alter id (Option.map fun n => { n with labels, createdTx := txId }) }
  | .deleteNode id =>
    { m with nodes := m.nodes.alter id (Option.map fun n => { n with deletedTx := txId }) }
  | .insertEdge id src dst etype propsRow =>
    { m with edges := m.edges.alter id fun _ => some (Edge.new id src dst etype propsRow txId) }
  | .deleteEdge id =>
    { m with edges := m.edges.alter id (Option.map fun e => { e with deletedTx := txId }) }
  | .insertProp label prop row value => { m with props := m.props.putCell label prop row value }

def writeAll (txId : TxId) (m : Maps) (ws : List StoreWrite) : Maps := ws.foldl (write txId) m

end Maps

/-! ## The stores do what is meant -/

theorem PropStore.insertProp_columns [Bincode (Option Value)] (s : PropStore) (label : LabelId)
    (prop : String) (row : UInt32) (value : Option Value) :
    (s.insertProp label prop row value).columns = s.columns.putCell label prop row value := by
  unfold PropStore.insertProp PropStore.walSendCell
  split <;> [rfl; (split <;> rfl)]

namespace Database

def maps (db : Database) : Maps :=
  { nodes := db.nodes.records, edges := db.edges.records, props := db.props.columns }

section Persistent
variable [Bincode Node] [Bincode Edge] [Bincode (Option Value)]

/-- **A store write does to the maps what it means.** -/
theorem perform_maps (db : Database) (txId : TxId) (w : StoreWrite) :
    (db.perform txId w).maps = db.maps.write txId w := by
  cases w with
  | insertNode id labels propsRow =>
    exact congrArg (fun nodes => { db.maps with nodes })
      (RecordStore.insertWithId_records db.nodes.toRecordStore id _)
  | updateLabels id labels =>
    exact congrArg (fun nodes => { db.maps with nodes })
      (RecordStore.modify_records db.nodes.toRecordStore id _)
  | deleteNode id =>
    exact congrArg (fun nodes => { db.maps with nodes })
      (RecordStore.modify_records db.nodes.toRecordStore id _)
  | insertEdge id src dst etype propsRow =>
    exact congrArg (fun edges => { db.maps with edges })
      (RecordStore.insertWithId_records db.edges id _)
  | deleteEdge id =>
    exact congrArg (fun edges => { db.maps with edges })
      (RecordStore.modify_records db.edges id _)
  | insertProp label prop row value =>
    exact congrArg (fun props => { db.maps with props })
      (PropStore.insertProp_columns db.props label prop row value)

theorem performAll_maps (txId : TxId) (ws : List StoreWrite) : ∀ db : Database,
    (db.performAll txId ws).maps = db.maps.writeAll txId ws := by
  induction ws with
  | nil => exact fun _ => rfl
  | cons w ws ih =>
    intro db
    show ((db.perform txId w).performAll txId ws).maps = _
    rw [ih, perform_maps]
    rfl

end Persistent
end Database

/-! ## Writes of different cells commute -/

namespace PropertyColumn

/-- Writing a row fills the rows below it and leaves the others. -/
theorem getElem?_put (col : PropertyColumn) (row : UInt32) (val : Option Value) (i : Nat) :
    (col.put row val).values[i]? =
      if i = row.toNat then some val
      else if i < row.toNat then some (col.values[i]?.getD none)
      else col.values[i]? := by
  have hlen : row.toNat < (col.extendTo (row.toNat + 1)).values.length := by
    simp only [extendTo, List.length_append, List.length_replicate]
    omega
  rw [put, set, if_pos hlen]
  simp only [List.getElem?_set]
  by_cases hi : row.toNat = i
  · rw [if_pos hi, if_pos hi.symm, if_pos (hi ▸ hlen)]
  · rw [if_neg hi, if_neg (Ne.symm hi), extendTo, List.getElem?_append]
    by_cases hin : i < col.values.length
    · rw [if_pos hin]
      simp [List.getElem?_eq_getElem hin]
    · rw [if_neg hin, List.getElem?_replicate]
      have hout : col.values[i]? = none := List.getElem?_eq_none (by omega)
      rw [hout]
      by_cases hrow : i < row.toNat
      · rw [if_pos hrow, if_pos (by omega), Option.getD_none]
      · rw [if_neg hrow, if_neg (by omega)]

/-- Two columns are one if they have the same in every row. -/
theorem ext_getElem? {col col' : PropertyColumn}
    (h : ∀ i : Nat, col.values[i]? = col'.values[i]?) : col = col' := by
  cases col with
  | mk values =>
    cases col' with
    | mk values' => exact congrArg mk (List.ext_getElem? h)

theorem put_comm (col : PropertyColumn) {row row' : UInt32} (val val' : Option Value)
    (h : row ≠ row') : (col.put row val).put row' val' = (col.put row' val').put row val := by
  have hne : row.toNat ≠ row'.toNat := fun heq => h (UInt32.toNat_inj.mp heq)
  apply ext_getElem?
  intro i
  simp only [getElem?_put]
  grind

end PropertyColumn

/-- Writing a cell is altering its column. -/
theorem Columns.putCell_eq_alter (columns : Columns) (label : LabelId) (prop : String)
    (row : UInt32) (val : Option Value) :
    columns.putCell label prop row val = columns.alter (label, prop)
      fun col => some ((col.getD PropertyColumn.new).put row val) := rfl

theorem Columns.putCell_comm (columns : Columns) {label label' : LabelId} {prop prop' : String}
    {row row' : UInt32} (val val' : Option Value)
    (h : (label, prop, row) ≠ (label', prop', row')) :
    (columns.putCell label prop row val).putCell label' prop' row' val'
      = (columns.putCell label' prop' row' val').putCell label prop row val := by
  simp only [putCell_eq_alter]
  by_cases hcol : (label, prop) = (label', prop')
  · -- one column, two rows
    obtain ⟨rfl, rfl⟩ := Prod.mk.inj hcol
    have hrow : row ≠ row' := fun heq => h (by rw [heq])
    apply FiniteMap.ext
    intro key
    simp only [FiniteMap.get_alter, if_true, Option.getD_some]
    split
    · rw [PropertyColumn.put_comm _ val val' hrow]
    · rfl
  · exact FiniteMap.alter_comm _ _ _ hcol

namespace Maps

/-- The shapes of a write: a change of one node, of one edge, or of one property cell. -/
theorem write_cases (txId : TxId) (w : StoreWrite) :
    (∃ id f, w.cell = .node id ∧
      ∀ m : Maps, m.write txId w = { m with nodes := m.nodes.alter id f }) ∨
    (∃ id f, w.cell = .edge id ∧
      ∀ m : Maps, m.write txId w = { m with edges := m.edges.alter id f }) ∨
    (∃ label prop row val, w.cell = .prop label prop row ∧
      ∀ m : Maps, m.write txId w = { m with props := m.props.putCell label prop row val }) := by
  cases w with
  | insertNode id labels propsRow => exact Or.inl ⟨id, _, rfl, fun _ => rfl⟩
  | updateLabels id labels => exact Or.inl ⟨id, _, rfl, fun _ => rfl⟩
  | deleteNode id => exact Or.inl ⟨id, _, rfl, fun _ => rfl⟩
  | insertEdge id src dst etype propsRow => exact Or.inr (Or.inl ⟨id, _, rfl, fun _ => rfl⟩)
  | deleteEdge id => exact Or.inr (Or.inl ⟨id, _, rfl, fun _ => rfl⟩)
  | insertProp label prop row value =>
    exact Or.inr (Or.inr ⟨label, prop, row, value, rfl, fun _ => rfl⟩)

/-- **Writes of different cells commute.** -/
theorem write_comm {w w' : StoreWrite} (h : w.cell ≠ w'.cell) (m : Maps) (t t' : TxId) :
    (m.write t w).write t' w' = (m.write t' w').write t w := by
  rcases write_cases t w with ⟨id, f, hc, hw⟩ | ⟨id, f, hc, hw⟩ | ⟨l, p, r, v, hc, hw⟩ <;>
  rcases write_cases t' w' with ⟨id', f', hc', hw'⟩ | ⟨id', f', hc', hw'⟩ |
    ⟨l', p', r', v', hc', hw'⟩ <;>
  simp only [hw, hw']
  · rw [FiniteMap.alter_comm _ f f' fun heq => h (by rw [hc, hc', heq])]
  · rw [FiniteMap.alter_comm _ f f' fun heq => h (by rw [hc, hc', heq])]
  · rw [Columns.putCell_comm _ v v' ?_]
    rintro heq
    obtain ⟨rfl, rfl, rfl⟩ : l = l' ∧ p = p' ∧ r = r' := by simpa using heq
    exact h (by rw [hc, hc'])

end Maps
end LightGraph
