import LightGraph.Proof.DatabaseLogs
import LightGraph.Proof.ReservedIds
import LightGraph.Transaction.History

/-!
# What a snapshot keeps

Records are overwritten in place, so a reader's snapshot is kept by the two stamps alone. A
delete leaves its stamp behind every older snapshot and an insert finds its id unused, and both
keep every older view as it was. An update does not: it replaces the labels and puts its own
number in the place of the creator's, and the node is gone from every older snapshot. That is
what the store means an update to do, and the history below says it is the only thing that
happens to a view — but for a second delete, which moves the stamp of the first.
-/

set_option autoImplicit false

namespace LightGraph

open Lib

/-! ## One node in one snapshot -/

/-- What a reader with the snapshot gets: the node's labels, or nothing. -/
def labelsAt (snapshot : TxId) (node : Option Node) : Option (List LabelId) :=
  (node.filter fun n => n.isAlive snapshot).map Node.labels

/-- Whatever is there, the snapshot is too old for it. -/
def Hidden (snapshot : TxId) (node : Option Node) : Prop :=
  ∀ n, node = some n → snapshot < n.createdTx

theorem labelsAt_of_hidden {snapshot : TxId} {node : Option Node} (h : Hidden snapshot node) :
    node.filter (fun n => n.isAlive snapshot) = none := by
  cases node with
  | none => rfl
  | some n =>
    have hdead : ¬ n.isAlive snapshot = true := fun halive =>
      UInt64.not_lt.mpr (aliveAt_iff.mp halive).1 (h n rfl)
    rw [Option.filter_some, if_neg hdead]

/-- The node as it was, `before`, and as it is, when no update has come between and no second
delete: it is the old one, deleted since perhaps, or a new one the snapshot does not reach. -/
inductive Kept (snapshot : TxId) : Option Node → Option Node → Prop
  | absent : Kept snapshot none none
  | created {m : Node} (hm : snapshot < m.createdTx) : Kept snapshot none (some m)
  | same {n m : Node} (hlabels : m.labels = n.labels) (hcreated : m.createdTx = n.createdTx)
      (hdeleted : m.deletedTx = n.deletedTx ∨ snapshot < n.deletedTx ∧ snapshot < m.deletedTx) :
      Kept snapshot (some n) (some m)

theorem Kept.refl (snapshot : TxId) : ∀ node, Kept snapshot node node
  | none => .absent
  | some _ => .same rfl rfl (Or.inl rfl)

/-- **A kept node reads as it did.** -/
theorem Kept.labelsAt {snapshot : TxId} {before node : Option Node}
    (h : Kept snapshot before node) : labelsAt snapshot node = labelsAt snapshot before := by
  cases h with
  | absent => rfl
  | created hm =>
    rw [LightGraph.labelsAt, labelsAt_of_hidden fun n hn => Option.some.inj hn ▸ hm]
    rfl
  | same hlabels hcreated hdeleted =>
    rename_i n m
    have halive : m.isAlive snapshot = n.isAlive snapshot := by
      rw [Bool.eq_iff_iff, Node.isAlive, Node.isAlive, aliveAt_iff, aliveAt_iff, hcreated]
      rcases hdeleted with heq | ⟨hn, hm⟩
      · rw [heq]
      · exact ⟨fun h => ⟨h.1, hn⟩, fun h => ⟨h.1, hm⟩⟩
    simp only [LightGraph.labelsAt, Option.filter_some, halive]
    split
    · rw [Option.map_some, Option.map_some, hlabels]
    · rfl

/-! ## One write -/

section Writes
variable {snapshot txId : TxId} {m : Maps} {id : NodeId} {w : StoreWrite}

/-- A write by a later transaction shows an older snapshot nothing it did not have. -/
theorem Hidden.write (h : Hidden snapshot (m.nodes.get id)) (hlt : snapshot < txId) :
    Hidden snapshot ((m.write txId w).nodes.get id) := by
  intro n hn
  cases w with
  | insertNode id' labels propsRow =>
    rw [Maps.write, FiniteMap.get_alter] at hn
    split at hn
    · rw [← Option.some.inj hn]
      exact hlt
    · exact h n hn
  | updateLabels id' labels =>
    rw [Maps.write, FiniteMap.get_alter] at hn
    split at hn
    · obtain ⟨n', -, rfl⟩ := Option.map_eq_some_iff.mp hn
      exact hlt
    · exact h n hn
  | deleteNode id' =>
    rw [Maps.write, FiniteMap.get_alter] at hn
    split at hn
    · rename_i heq
      obtain ⟨n', hn', rfl⟩ := Option.map_eq_some_iff.mp hn
      exact h n' (heq ▸ hn')
    · exact h n hn
  | insertEdge id' src dst etype propsRow => exact h n hn
  | deleteEdge id' => exact h n hn
  | insertProp label prop row value => exact h n hn

/-- An update hides the node from every older snapshot. -/
theorem hidden_updateLabels (labels : List LabelId) (hlt : snapshot < txId) :
    Hidden snapshot ((m.write txId (.updateLabels id labels)).nodes.get id) := by
  intro n hn
  rw [Maps.write, FiniteMap.get_alter, if_pos rfl] at hn
  obtain ⟨n', -, rfl⟩ := Option.map_eq_some_iff.mp hn
  exact hlt

theorem Kept.write {before : Option Node} (h : Kept snapshot before (m.nodes.get id))
    (hlt : snapshot < txId) (hupdate : ∀ labels, w ≠ .updateLabels id labels)
    (hdelete : w = .deleteNode id → ∀ n, before = some n → snapshot < n.deletedTx)
    (hinsert : w.newNode? = some id → m.nodes.get id = none) :
    Kept snapshot before ((m.write txId w).nodes.get id) := by
  cases w with
  | insertNode id' labels propsRow =>
    rw [Maps.write, FiniteMap.get_alter]
    split
    · rename_i heq
      rw [hinsert (congrArg some heq.symm)] at h
      cases h with
      | absent => exact .created hlt
    · exact h
  | updateLabels id' labels =>
    rw [Maps.write, FiniteMap.get_alter, if_neg fun heq => hupdate labels (by rw [heq])]
    exact h
  | deleteNode id' =>
    rw [Maps.write, FiniteMap.get_alter]
    split
    · rename_i heq
      subst heq
      have hbefore := hdelete rfl
      generalize m.nodes.get id = node at h
      cases h with
      | absent => exact .absent
      | created hm => exact .created hm
      | same hlabels hcreated _ =>
        exact .same hlabels hcreated (Or.inr ⟨hbefore _ rfl, hlt⟩)
    · exact h
  | insertEdge id' src dst etype propsRow => exact h
  | deleteEdge id' => exact h
  | insertProp label prop row value => exact h

end Writes

/-! ## The writes of a commit -/

namespace Database

section Persistent
variable [Bincode Node] [Bincode Edge] [Bincode (Option Value)]
variable {snapshot txId : TxId} {id : NodeId}

theorem perform_node (db : Database) (txId : TxId) (w : StoreWrite) :
    (db.perform txId w).nodes.records = (db.maps.write txId w).nodes :=
  congrArg Maps.nodes (perform_maps db txId w)

theorem hidden_performAll (hlt : snapshot < txId) : ∀ {ws : List StoreWrite} (db : Database),
    Hidden snapshot (db.nodes.get id) →
    Hidden snapshot ((db.performAll txId ws).nodes.get id) := by
  intro ws
  induction ws with
  | nil => exact fun _ h => h
  | cons w ws ih =>
    intro db h
    refine ih (db.perform txId w) ?_
    rw [RecordStore.get, perform_node]
    exact h.write hlt

theorem hidden_of_update (hlt : snapshot < txId) {labels : List LabelId} :
    ∀ {ws : List StoreWrite} (db : Database), StoreWrite.updateLabels id labels ∈ ws →
    Hidden snapshot ((db.performAll txId ws).nodes.get id) := by
  intro ws
  induction ws with
  | nil => exact fun _ h => absurd h List.not_mem_nil
  | cons w ws ih =>
    intro db h
    rcases List.mem_cons.mp h with rfl | h
    · refine hidden_performAll hlt (db.perform txId _) ?_
      rw [RecordStore.get, perform_node]
      exact hidden_updateLabels labels hlt
    · exact ih (db.perform txId w) h

theorem kept_performAll {before : Option Node} (hlt : snapshot < txId) (ids : List NodeId) :
    ∀ {ws : List StoreWrite} (db : Database),
    db.nodes.Reserving (ws.filterMap StoreWrite.newNode? ++ ids) →
    (∀ labels, StoreWrite.updateLabels id labels ∉ ws) →
    (StoreWrite.deleteNode id ∈ ws → ∀ n, before = some n → snapshot < n.deletedTx) →
    Kept snapshot before (db.nodes.get id) →
    Kept snapshot before ((db.performAll txId ws).nodes.get id) := by
  intro ws
  induction ws with
  | nil => exact fun _ _ _ _ h => h
  | cons w ws ih =>
    intro db hres hupdate hdelete h
    rw [Clients.filterMap_cons_toList, List.append_assoc] at hres
    refine ih (db.perform txId w) ((Clients.perform_reserving db txId w).1 _ hres)
      (fun labels hmem => hupdate labels (List.mem_cons_of_mem w hmem))
      (fun hmem => hdelete (List.mem_cons_of_mem w hmem)) ?_
    rw [RecordStore.get, perform_node]
    refine h.write hlt (fun labels heq => hupdate labels (heq ▸ List.mem_cons_self))
      (fun heq => hdelete (heq ▸ List.mem_cons_self)) fun hnew => ?_
    -- the id of an insert to come is reserved, so it is no key
    exact hres.absent (by rw [hnew]; exact List.mem_cons_self)

/-- The writes of a commit use up what was reserved for them. -/
theorem performAll_reserving (txId : TxId) : ∀ (ws : List StoreWrite) (db : Database),
    (∀ ids, db.nodes.Reserving (ws.filterMap StoreWrite.newNode? ++ ids) →
      (db.performAll txId ws).nodes.Reserving ids) ∧
    (∀ ids, RecordStore.Reserving db.edges (ws.filterMap StoreWrite.newEdge? ++ ids) →
      RecordStore.Reserving (db.performAll txId ws).edges ids) := by
  intro ws
  induction ws with
  | nil => exact fun _ => ⟨fun _ h => h, fun _ h => h⟩
  | cons w ws ih =>
    intro db
    obtain ⟨hnodes, hedges⟩ := Clients.perform_reserving db txId w
    simp only [Clients.filterMap_cons_toList, List.append_assoc]
    exact ⟨fun ids h => (ih _).1 ids (hnodes _ h), fun ids h => (ih _).2 ids (hedges _ h)⟩

end Persistent
end Database

/-! ## A history -/

/-- The transaction has an update of the node's labels. -/
def Transaction.UpdatesLabels (tx : Transaction) (id : NodeId) : Prop :=
  ∃ labels, (id, labels) ∈ tx.nodeUpdates

theorem Transaction.updateLabels_mem_writes {tx : Transaction} {id : NodeId}
    {labels : List LabelId} :
    StoreWrite.updateLabels id labels ∈ tx.writes ↔ (id, labels) ∈ tx.nodeUpdates := by
  simp [Transaction.writes]

theorem Transaction.deleteNode_mem_writes {tx : Transaction} {id : NodeId} :
    StoreWrite.deleteNode id ∈ tx.writes ↔ id ∈ tx.nodeDeletes := by
  simp [Transaction.writes]

namespace History

section Persistent
variable [Bincode Node] [Bincode Edge] [Bincode (Option Value)]

/-- What holds between the steps of a history. -/
structure Consistent (h : History) : Prop where
  isOpen : h.Open
  next : 0 < h.db.txManager.nextTxId
  tickets : ∀ tx ∈ h.writers, 0 < tx.txId
  reserved : h.clients.Reserved
  readers : ∀ r ∈ h.readers, r.snapshot ≤ h.db.txManager.committedTxId

/-- There are numbers left: for tickets, and for ids. -/
def HasNumbers (h : History) : HistoryStep → Prop
  | .beginWrite => h.db.txManager.nextTxId < maxTxId
  | .call i c => h.clients.HasRoom (.call i c)
  | _ => True

omit [Bincode Node] [Bincode Edge] [Bincode (Option Value)] in
theorem start_consistent {db : Database} (hnext : 0 < db.txManager.nextTxId)
    (hn : db.nodes.Sound) (he : RecordStore.Sound db.edges) : (start db).Consistent :=
  ⟨fun _ h => absurd h List.not_mem_nil, hnext, fun _ h => absurd h List.not_mem_nil,
    Clients.Reserved.start hn he, fun _ h => absurd h List.not_mem_nil⟩

omit [Bincode Node] [Bincode Edge] [Bincode (Option Value)] in
/-- A turn moves the counter up by one. -/
theorem advance_lt {m m' : TxManager} {txId : TxId} (hpos : 0 < txId)
    (h : m.advance txId = some m') :
    m.committedTxId < m'.committedTxId ∧ m'.committedTxId = txId ∧ m'.nextTxId = m.nextTxId := by
  obtain ⟨hturn, rfl⟩ := TxManager.advance_eq_some_iff.mp h
  refine ⟨?_, rfl, rfl⟩
  show m.committedTxId < txId
  have hzero : (0 : UInt64).toNat = 0 := rfl
  have hone : (1 : UInt64).toNat = 1 := rfl
  rw [UInt64.lt_iff_toNat_lt, hzero] at hpos
  have hle : (1 : UInt64) ≤ txId := by
    rw [UInt64.le_iff_toNat_le, hone]
    exact hpos
  rw [hturn, UInt64.lt_iff_toNat_lt, UInt64.toNat_sub_of_le _ _ hle, hone]
  exact Nat.sub_lt hpos Nat.one_pos

variable {h h' : History} {a : HistoryStep}

theorem Consistent.step (hc : h.Consistent) (hg : h.HasNumbers a) (hs : h.step a = some h') :
    h'.Consistent := by
  have hfine : ∀ {b}, a.fine = some b → h.clients.HasRoom b → h'.clients.Reserved :=
    fun hb hroom => hc.reserved.step hroom (step_fine hc.isOpen hb hs).1
  cases a with
  | beginRead =>
    have hres := hfine rfl trivial
    obtain rfl := Option.some.inj hs
    refine ⟨hc.isOpen, hc.next, hc.tickets, hres, fun r hr => ?_⟩
    rcases List.mem_append.mp hr with hr | hr
    · exact hc.readers r hr
    · rw [List.mem_singleton.mp hr]
      exact UInt64.le_refl _
  | beginWrite =>
    have hres := hfine rfl trivial
    obtain rfl := Option.some.inj hs
    have hup : h.db.txManager.nextTxId < h.db.txManager.nextTxId + 1 := lt_add_one_of_lt_max hg
    refine ⟨fun tx htx => ?_, UInt64.lt_trans hc.next hup, fun tx htx => ?_, hres, hc.readers⟩
    · rcases List.mem_append.mp htx with htx | htx
      · exact hc.isOpen tx htx
      · rw [List.mem_singleton.mp htx]
        exact ⟨rfl, rfl⟩
    · rcases List.mem_append.mp htx with htx | htx
      · exact hc.tickets tx htx
      · rw [List.mem_singleton.mp htx]
        exact hc.next
  | call i c =>
    have hres := hfine rfl hg
    simp only [History.step] at hs
    split at hs
    · exact absurd hs (by simp)
    · rename_i tx htx
      obtain rfl := Option.some.inj hs
      obtain ⟨-, hm, htxId, hwrite, hcommitted⟩ := Database.apply_same (tx, h.db) c
      have hmem := List.mem_of_getElem? htx
      refine ⟨fun tx' htx' => ?_, ?_, fun tx' htx' => ?_, hres, ?_⟩
      · rcases List.mem_or_eq_of_mem_set htx' with htx' | rfl
        · exact hc.isOpen tx' htx'
        · exact ⟨hwrite.trans (hc.isOpen tx hmem).1, hcommitted.trans (hc.isOpen tx hmem).2⟩
      · show 0 < (TxCall.apply (tx, h.db) c).2.txManager.nextTxId
        rw [hm]
        exact hc.next
      · rcases List.mem_or_eq_of_mem_set htx' with htx' | rfl
        · exact hc.tickets tx' htx'
        · rw [htxId]
          exact hc.tickets tx hmem
      · intro r hr
        show r.snapshot ≤ (TxCall.apply (tx, h.db) c).2.txManager.committedTxId
        rw [hm]
        exact hc.readers r hr
  | commit i =>
    rcases step_commit_inv hc.isOpen hs with rfl | ⟨tx, m, htx, hadv, rfl⟩
    · exact hc
    · obtain ⟨hup, -, hnext⟩ := advance_lt (hc.tickets tx (List.mem_of_getElem? htx)) hadv
      have hmanager := Database.performAll_txManager tx.txId tx.writes (h.db.withManager m)
      obtain ⟨hnodes, hedges⟩ :=
        Database.performAll_reserving tx.txId tx.writes (h.db.withManager m)
      refine ⟨fun tx' htx' => hc.isOpen tx' (List.mem_of_mem_eraseIdx htx'), ?_,
        fun tx' htx' => hc.tickets tx' (List.mem_of_mem_eraseIdx htx'), ⟨?_, ?_⟩, ?_⟩
      · show 0 < (Database.performAll _ _ _).txManager.nextTxId
        rw [hmanager]
        exact hnext.symm ▸ hc.next
      · exact hnodes _ (hc.reserved.nodes.perm (Clients.reserved_rollback (s := h.clients) htx _))
      · exact hedges _ (RecordStore.Reserving.perm hc.reserved.edges
          (Clients.reserved_rollback (s := h.clients) htx _))
      · intro r hr
        show r.snapshot ≤ (Database.performAll _ _ _).txManager.committedTxId
        rw [hmanager]
        exact UInt64.le_trans (hc.readers r hr) (UInt64.le_of_lt hup)
  | rollback i =>
    have hres := hfine rfl trivial
    obtain ⟨tx, m, htx, hadv, rfl⟩ := step_rollback_inv hc.isOpen hs
    obtain ⟨hup, -, hnext⟩ := advance_lt (hc.tickets tx (List.mem_of_getElem? htx)) hadv
    refine ⟨fun tx' htx' => hc.isOpen tx' (List.mem_of_mem_eraseIdx htx'), ?_,
      fun tx' htx' => hc.tickets tx' (List.mem_of_mem_eraseIdx htx'), hres, fun r hr => ?_⟩
    · exact hnext.symm ▸ hc.next
    · exact UInt64.le_trans (hc.readers r hr) (UInt64.le_of_lt hup)

/-! ## Two points of a history -/

/-- The node at the earlier point, the transactions committed since, and the node now. -/
structure Since (snapshot : TxId) (id : NodeId) (before : Option Node)
    (between : List Transaction) (node : Option Node) : Prop where
  hidden : (∃ tx ∈ between, tx.UpdatesLabels id) → Hidden snapshot node
  kept : (∀ tx ∈ between, ¬ tx.UpdatesLabels id) →
    (∀ tx ∈ between, id ∈ tx.nodeDeletes → ∀ n, before = some n → snapshot < n.deletedTx) →
    Kept snapshot before node

/-- A step that commits nothing leaves the nodes and the readers it found. -/
theorem step_same (hopen : h.Open) (hs : h.step a = some h') (ha : ∀ i, a ≠ .commit i) :
    h'.db.nodes.records = h.db.nodes.records ∧ h'.committed = h.committed ∧
    h.readers ⊆ h'.readers := by
  cases a with
  | beginRead =>
    obtain rfl := Option.some.inj hs
    exact ⟨rfl, rfl, List.subset_append_left _ _⟩
  | beginWrite =>
    obtain rfl := Option.some.inj hs
    exact ⟨rfl, rfl, List.Subset.refl _⟩
  | call i c =>
    simp only [History.step] at hs
    split at hs
    · exact absurd hs (by simp)
    · rename_i tx htx
      obtain rfl := Option.some.inj hs
      exact ⟨(Database.apply_same (tx, h.db) c).1.nodeRecords, rfl, List.Subset.refl _⟩
  | commit i => exact absurd rfl (ha i)
  | rollback i =>
    obtain ⟨tx, m, -, -, rfl⟩ := step_rollback_inv hopen hs
    exact ⟨rfl, rfl, List.Subset.refl _⟩

/-- **One step**, seen from an earlier point `h₁`. -/
theorem Since.step {h₁ : History} {r : Transaction} {id : NodeId} {between : List Transaction}
    (hc : h.Consistent) (hr : r ∈ h.readers) (hcommitted : h.committed = h₁.committed ++ between)
    (hsince : Since r.snapshot id (h₁.db.nodes.get id) between (h.db.nodes.get id))
    (hs : h.step a = some h') :
    r ∈ h'.readers ∧ ∃ between', h'.committed = h₁.committed ++ between' ∧
      Since r.snapshot id (h₁.db.nodes.get id) between' (h'.db.nodes.get id) := by
  by_cases ha : ∃ i, a = .commit i
  · obtain ⟨i, rfl⟩ := ha
    rcases step_commit_inv hc.isOpen hs with rfl | ⟨tx, m, htx, hadv, rfl⟩
    · exact ⟨hr, between, hcommitted, hsince⟩
    · -- the number of the transaction is above the reader's snapshot
      obtain ⟨hup, hm, -⟩ := advance_lt (hc.tickets tx (List.mem_of_getElem? htx)) hadv
      have hlt : r.snapshot < tx.txId := hm ▸ UInt64.lt_of_le_of_lt (hc.readers r hr) hup
      refine ⟨hr, between ++ [{ tx with committed := true }], ?_, ?_, ?_⟩
      · rw [hcommitted, List.append_assoc]
      · rintro ⟨tx', htx', hupdates⟩
        rcases List.mem_append.mp htx' with hold | hnew
        · exact Database.hidden_performAll hlt (h.db.withManager m)
            (hsince.hidden ⟨tx', hold, hupdates⟩)
        · obtain rfl := List.mem_singleton.mp hnew
          obtain ⟨labels, hlabels⟩ := hupdates
          exact Database.hidden_of_update hlt (h.db.withManager m)
            (Transaction.updateLabels_mem_writes.mpr hlabels)
      · intro hupdate hdelete
        have hmem : ({ tx with committed := true } : Transaction) ∈
            between ++ [{ tx with committed := true }] := by simp
        refine Database.kept_performAll hlt _ (h.db.withManager m)
          (hc.reserved.nodes.perm (Clients.reserved_rollback (s := h.clients) htx h.db))
          (fun labels hw => ?_) (fun hw => ?_) ?_
        · exact hupdate _ hmem ⟨labels, Transaction.updateLabels_mem_writes.mp hw⟩
        · exact hdelete _ hmem (Transaction.deleteNode_mem_writes.mp hw)
        · exact hsince.kept (fun tx' htx' => hupdate tx' (List.mem_append_left _ htx'))
            fun tx' htx' => hdelete tx' (List.mem_append_left _ htx')
  · obtain ⟨hrecords, hcom, hreaders⟩ := step_same hc.isOpen hs fun i hi => ha ⟨i, hi⟩
    refine ⟨hreaders hr, between, hcom.trans hcommitted, ?_⟩
    have hnode : h'.db.nodes.get id = h.db.nodes.get id := congrArg (·.get id) hrecords
    exact hnode ▸ hsince

/-- The reader sees that the node has been deleted. -/
def SeesDeleted (r : Transaction) (db : Database) (id : NodeId) : Prop :=
  ∃ n, db.nodes.get id = some n ∧ n.deletedTx ≤ r.snapshot

end Persistent
end History

/-- **Node reads are repeatable within a snapshot, but for updates.** Between two points of a
history a label update of the node hides it from the reader; without one the reader gets the
same, unless a node it sees deleted is deleted once more. -/
theorem node_reads_repeatable [Bincode Node] [Bincode Edge] [Bincode (Option Value)]
    {db : Database} (hnext : 0 < db.txManager.nextTxId) (hn : db.nodes.Sound)
    (he : RecordStore.Sound db.edges) {steps later : List HistoryStep} {h₁ h₂ : History}
    (hg₁ : Guarded History.step History.HasNumbers (.start db) steps)
    (hrun₁ : run History.step (.start db) steps = some h₁)
    (hg₂ : Guarded History.step History.HasNumbers h₁ later)
    (hrun₂ : run History.step h₁ later = some h₂)
    {r : Transaction} (hr : r ∈ h₁.readers) (id : NodeId) :
    ∃ between, h₂.committed = h₁.committed ++ between ∧
      ((∃ tx ∈ between, tx.UpdatesLabels id) → r.getNode h₂.db id = none) ∧
      ((∀ tx ∈ between, ¬ tx.UpdatesLabels id) →
        ¬ (History.SeesDeleted r h₁.db id ∧ ∃ tx ∈ between, id ∈ tx.nodeDeletes) →
        (r.getNode h₂.db id).map Node.labels = (r.getNode h₁.db id).map Node.labels) := by
  have hc₁ : h₁.Consistent := guarded_invariant (fun _ _ _ hc hg hs => hc.step hg hs)
    (History.start_consistent hnext hn he) hg₁ hrun₁
  have hstart : History.Since r.snapshot id (h₁.db.nodes.get id) [] (h₁.db.nodes.get id) :=
    ⟨fun ⟨_, htx, _⟩ => absurd htx List.not_mem_nil, fun _ _ => Kept.refl _ _⟩
  have hlater : h₂.Consistent ∧ r ∈ h₂.readers ∧ ∃ between,
      h₂.committed = h₁.committed ++ between ∧
      History.Since r.snapshot id (h₁.db.nodes.get id) between (h₂.db.nodes.get id) := by
    refine guarded_invariant (I := fun h : History => h.Consistent ∧ r ∈ h.readers ∧ ∃ between,
      h.committed = h₁.committed ++ between ∧
      History.Since r.snapshot id (h₁.db.nodes.get id) between (h.db.nodes.get id)) ?_
      ⟨hc₁, hr, [], (List.append_nil _).symm, hstart⟩ hg₂ hrun₂
    rintro h a h' ⟨hc, hr, between, hcommitted, hsince⟩ hg hs
    exact ⟨hc.step hg hs, hsince.step hc hr hcommitted hs⟩
  obtain ⟨-, -, between, hcommitted, hsince⟩ := hlater
  refine ⟨between, hcommitted, fun hupdated => labelsAt_of_hidden (hsince.hidden hupdated), ?_⟩
  intro hupdate hdelete
  refine (hsince.kept hupdate fun tx htx hdel n hn => ?_).labelsAt
  exact UInt64.not_le.mp fun hle => hdelete ⟨⟨n, hn, hle⟩, tx, htx, hdel⟩

/-! ## Any question about two points -/

namespace History

section Persistent
variable [Bincode Node] [Bincode Edge] [Bincode (Option Value)]

/-- A step that commits nothing leaves the edges it found. -/
theorem step_same_edges {h h' : History} {a : HistoryStep} (hopen : h.Open)
    (hs : h.step a = some h') (ha : ∀ i, a ≠ .commit i) :
    h'.db.edges.records = h.db.edges.records := by
  cases a with
  | beginRead => rw [← Option.some.inj hs]
  | beginWrite =>
    obtain rfl := Option.some.inj hs
    rfl
  | call i c =>
    simp only [History.step] at hs
    split at hs
    · exact absurd hs (by simp)
    · rename_i tx htx
      obtain rfl := Option.some.inj hs
      exact (Database.apply_same (tx, h.db) c).1.edgeRecords
  | commit i => exact absurd rfl (ha i)
  | rollback i =>
    obtain ⟨tx, m, -, -, rfl⟩ := step_rollback_inv hopen hs
    rfl

/-- What `P` says of the records, given the transactions committed since the earlier point, holds at
the later one, if a commit with a number above the reader's snapshot keeps it. -/
theorem between_points {h₁ h₂ : History} {r : Transaction} {P : List Transaction → Database → Prop}
    (hsame : ∀ between db db', db'.nodes.records = db.nodes.records →
      db'.edges.records = db.edges.records → P between db → P between db')
    (hcommit : ∀ between (h : History) (i : Nat) (tx : Transaction) (m : TxManager),
      h.Consistent → h.writers[i]? = some tx → r.snapshot < tx.txId → P between h.db →
      P (between ++ [{ tx with committed := true }])
        ((h.db.withManager m).performAll tx.txId tx.writes))
    (hc : h₁.Consistent) (hr : r ∈ h₁.readers) (hstart : P [] h₁.db) {steps : List HistoryStep}
    (hg : Guarded History.step HasNumbers h₁ steps) (hrun : run History.step h₁ steps = some h₂) :
    ∃ between, h₂.committed = h₁.committed ++ between ∧ P between h₂.db := by
  have hlater : h₂.Consistent ∧ r ∈ h₂.readers ∧
      ∃ between, h₂.committed = h₁.committed ++ between ∧ P between h₂.db := by
    refine guarded_invariant (I := fun h : History => h.Consistent ∧ r ∈ h.readers ∧
      ∃ between, h.committed = h₁.committed ++ between ∧ P between h.db) ?_
      ⟨hc, hr, [], (List.append_nil _).symm, hstart⟩ hg hrun
    rintro h a h' ⟨hc, hr, between, hcommitted, hP⟩ hg hs
    refine ⟨hc.step hg hs, ?_⟩
    by_cases ha : ∃ i, a = .commit i
    · obtain ⟨i, rfl⟩ := ha
      rcases step_commit_inv hc.isOpen hs with rfl | ⟨tx, m, htx, hadv, rfl⟩
      · exact ⟨hr, between, hcommitted, hP⟩
      · -- the number of the transaction is above the reader's snapshot
        obtain ⟨hup, hm, -⟩ := advance_lt (hc.tickets tx (List.mem_of_getElem? htx)) hadv
        have hlt : r.snapshot < tx.txId := hm ▸ UInt64.lt_of_le_of_lt (hc.readers r hr) hup
        refine ⟨hr, between ++ [{ tx with committed := true }], ?_,
          hcommit between h i tx m hc htx hlt hP⟩
        rw [hcommitted, List.append_assoc]
    · have hne : ∀ i, a ≠ .commit i := fun i hi => ha ⟨i, hi⟩
      obtain ⟨hnodes, hcom, hreaders⟩ := step_same hc.isOpen hs hne
      exact ⟨hreaders hr, between, hcom.trans hcommitted,
        hsame between h.db h'.db hnodes (step_same_edges hc.isOpen hs hne) hP⟩
  exact hlater.2.2

end Persistent
end History

/-! ## What an update does to an older snapshot -/

/-- A node is created and committed, and a reader begins. -/
def createAndRead : List HistoryStep :=
  [.beginWrite, .call 0 (.createNode [0] 0), .commit 0, .beginRead]

def relabel : List HistoryStep := [.beginWrite, .call 0 (.updateNodeLabels 0 [99]), .commit 0]

def delete : List HistoryStep := [.beginWrite, .call 0 (.deleteNode 0), .commit 0]

/-- The reader had the node before it was relabelled. -/
theorem relabelled_node_unread :
    ¬ ∀ (steps later : List HistoryStep) (h₁ h₂ : History) (r : Transaction) (id : NodeId),
      run History.step (.start Database.memory) steps = some h₁ →
      run History.step h₁ later = some h₂ → r ∈ h₁.readers →
      (r.getNode h₂.db id).map Node.labels = (r.getNode h₁.db id).map Node.labels := by
  intro h
  have hsame := h createAndRead relabel _ _ (Transaction.new 0 1 false) 0 rfl rfl
    List.mem_cons_self
  exact absurd hsame (by decide)

/-- The history at the reader's begin, and after the delete. -/
def History.atRead : History :=
  (run History.step (.start Database.memory) createAndRead).getD (.start Database.memory)

def History.atDelete : History := (run History.step .atRead delete).getD .atRead

/-- Deleted meanwhile, it is still read. -/
theorem node_reads_repeatable_deleted :
    ((Transaction.new 0 1 false).getNode History.atDelete.db 0).map Node.labels = some [0] := by
  have hg₁ : Guarded History.step History.HasNumbers (.start Database.memory) createAndRead :=
    Guarded.cons rfl (show (1 : UInt64) < maxTxId by decide)
      (Guarded.cons rfl (show (0 : UInt64) < maxTxId by decide)
        (Guarded.cons rfl trivial (Guarded.cons rfl trivial trivial)))
  have hg₂ : Guarded History.step History.HasNumbers .atRead delete :=
    Guarded.cons rfl (show (2 : UInt64) < maxTxId by decide)
      (Guarded.cons rfl trivial (Guarded.cons rfl trivial trivial))
  have hrun₁ : run History.step (.start Database.memory) createAndRead = some .atRead := rfl
  have hrun₂ : run History.step .atRead delete = some .atDelete := rfl
  obtain ⟨between, hbetween, -, hsame⟩ := node_reads_repeatable (by decide)
    RecordStore.new_sound RecordStore.new_sound hg₁ hrun₁ hg₂ hrun₂
    (r := Transaction.new 0 1 false) List.mem_cons_self 0
  obtain rfl : History.atDelete.committed.drop 1 = between := congrArg (List.drop 1) hbetween
  refine hsame ?_ ?_
  · rintro tx htx ⟨labels, hlabels⟩
    obtain rfl := List.mem_singleton.mp htx
    exact absurd hlabels List.not_mem_nil
  · rintro ⟨⟨n, hn, hle⟩, -⟩
    obtain rfl : Node.new 0 [0] 0 1 = n := Option.some.inj hn
    exact absurd hle (by decide)

end LightGraph
