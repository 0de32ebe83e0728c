import LightGraph.Proof.Repeatable

/-!
# What a snapshot keeps of an edge

No transaction writes an edge over: it is inserted under an id nobody has, and its stamp of
deletion is set. So a reader finds the edge it found before, or, if it found none, none — but for
one thing. A second delete moves the stamp of the first one past older snapshots, and an edge that
was gone comes back to a reader that had seen it go.
-/

set_option autoImplicit false

namespace LightGraph

open Lib

/-- The edge without the stamp of its deletion. -/
def Edge.undeleted (e : Edge) : Edge := { e with deletedTx := maxTxId }

/-- What a reader with the snapshot gets. -/
def edgeAt (snapshot : TxId) (edge : Option Edge) : Option Edge :=
  (edge.filter fun e => e.isAlive snapshot).map Edge.undeleted

/-- The edge as it was, and as it is; `deleted` says that it has been deleted in between. -/
inductive EdgeSince (snapshot : TxId) (deleted : Prop) : Option Edge → Option Edge → Prop
  | unseen {edge : Option Edge} (hnew : ∀ e, edge = some e → snapshot < e.createdTx) :
      EdgeSince snapshot deleted none edge
  | same {e : Edge} (hdeleted : ¬ deleted) : EdgeSince snapshot deleted (some e) (some e)
  | stamped {e : Edge} {txId : TxId} (hdeleted : deleted) (hlt : snapshot < txId) :
      EdgeSince snapshot deleted (some e) (some { e with deletedTx := txId })

namespace EdgeSince

variable {snapshot : TxId} {deleted deleted' : Prop} {before edge : Option Edge}

theorem refl (snapshot : TxId) : ∀ edge, EdgeSince snapshot False edge edge
  | none => .unseen fun _ h => absurd h (by simp)
  | some _ => .same id

theorem congr (h : EdgeSince snapshot deleted before edge) (hiff : deleted ↔ deleted') :
    EdgeSince snapshot deleted' before edge :=
  propext hiff ▸ h

/-! ## One write -/

section Writes
variable {txId : TxId} {m : Maps} {id : EdgeId} {w : StoreWrite}

/-- A write that is no delete of the edge, nor an insert under its id. -/
theorem other (h : EdgeSince snapshot deleted before edge) (hw : w ≠ .deleteEdge id) :
    EdgeSince snapshot (deleted ∨ w = .deleteEdge id) before edge :=
  h.congr (by simp [hw])

theorem write (h : EdgeSince snapshot deleted before (m.edges.get id)) (hlt : snapshot < txId)
    (hinsert : w.newEdge? = some id → m.edges.get id = none) :
    EdgeSince snapshot (deleted ∨ w = .deleteEdge id) before
      ((m.write txId w).edges.get id) := by
  cases w with
  | insertNode id' labels propsRow => exact h.other (by simp)
  | updateLabels id' labels => exact h.other (by simp)
  | deleteNode id' => exact h.other (by simp)
  | insertProp label prop row value => exact h.other (by simp)
  | insertEdge id' src dst etype propsRow =>
    rw [Maps.write, FiniteMap.get_alter]
    split
    · rename_i heq
      rw [hinsert (congrArg some heq.symm)] at h
      cases h with
      | unseen _ =>
        refine .unseen fun e he => ?_
        rw [← Option.some.inj he]
        exact hlt
    · exact h.other (by simp)
  | deleteEdge id' =>
    rw [Maps.write, FiniteMap.get_alter]
    split
    · rename_i heq
      subst heq
      generalize m.edges.get id = now at h
      cases h with
      | unseen hnew =>
        refine .unseen fun e he => ?_
        obtain ⟨e', he', rfl⟩ := Option.map_eq_some_iff.mp he
        exact hnew e' he'
      | same _ => exact .stamped (Or.inr rfl) hlt
      | stamped _ _ => exact .stamped (Or.inr rfl) hlt
    · rename_i hne
      exact h.other fun heq => hne (StoreWrite.deleteEdge.inj heq).symm

end Writes

/-- **The reader finds what it found before**, unless the edge was deleted in its snapshot
already, and has been deleted again. -/
theorem edgeAt_eq_iff (h : EdgeSince snapshot deleted before edge) :
    edgeAt snapshot edge = edgeAt snapshot before ↔
      ¬ (deleted ∧ ∃ e, before = some e ∧ e.createdTx ≤ snapshot ∧ e.deletedTx ≤ snapshot) := by
  cases h with
  | unseen hnew =>
    have hnone : edgeAt snapshot edge = none := by
      cases edge with
      | none => rfl
      | some e =>
        have hdead : ¬ e.isAlive snapshot = true := fun halive =>
          UInt64.not_lt.mpr (aliveAt_iff.mp halive).1 (hnew e rfl)
        rw [edgeAt, Option.filter_some, if_neg hdead]
        rfl
    rw [hnone]
    exact iff_of_true rfl (by simp)
  | same hdeleted => exact iff_of_true rfl fun h => hdeleted h.1
  | stamped hdeleted hlt =>
    rename_i e txId
    simp only [edgeAt, Option.filter_some, Edge.isAlive]
    by_cases hcreated : e.createdTx ≤ snapshot
    · have hnow : aliveAt e.createdTx txId snapshot = true := aliveAt_iff.mpr ⟨hcreated, hlt⟩
      by_cases hgone : e.deletedTx ≤ snapshot
      · have hbefore : ¬ aliveAt e.createdTx e.deletedTx snapshot = true := fun halive =>
          UInt64.not_lt.mpr hgone (aliveAt_iff.mp halive).2
        rw [if_pos hnow, if_neg hbefore]
        exact iff_of_false (by simp) fun h => h ⟨hdeleted, e, rfl, hcreated, hgone⟩
      · have hbefore : aliveAt e.createdTx e.deletedTx snapshot = true :=
          aliveAt_iff.mpr ⟨hcreated, UInt64.not_le.mp hgone⟩
        rw [if_pos hnow, if_pos hbefore]
        refine iff_of_true rfl ?_
        rintro ⟨-, e', he', -, hgone'⟩
        exact hgone (Option.some.inj he' ▸ hgone')
    · have hnever : ∀ d, ¬ aliveAt e.createdTx d snapshot = true := fun d halive =>
        hcreated (aliveAt_iff.mp halive).1
      rw [if_neg (hnever _), if_neg (hnever _)]
      refine iff_of_true rfl ?_
      rintro ⟨-, e', he', hcreated', -⟩
      exact hcreated (Option.some.inj he' ▸ hcreated')

end EdgeSince

/-! ## The writes of a commit -/

theorem Transaction.deleteEdge_mem_writes {tx : Transaction} {id : EdgeId} :
    StoreWrite.deleteEdge id ∈ tx.writes ↔ id ∈ tx.edgeDeletes := by
  simp [Transaction.writes]

section Persistent
variable [Bincode Node] [Bincode Edge] [Bincode (Option Value)]
variable {snapshot txId : TxId} {id : EdgeId}

theorem Database.perform_edge (db : Database) (txId : TxId) (w : StoreWrite) :
    (db.perform txId w).edges.records = (db.maps.write txId w).edges :=
  congrArg Maps.edges (perform_maps db txId w)

theorem Database.edgeSince_performAll {before : Option Edge} (hlt : snapshot < txId)
    (ids : List EdgeId) : ∀ {ws : List StoreWrite} {deleted : Prop} (db : Database),
    RecordStore.Reserving db.edges (ws.filterMap StoreWrite.newEdge? ++ ids) →
    EdgeSince snapshot deleted before (db.edges.get id) →
    EdgeSince snapshot (deleted ∨ StoreWrite.deleteEdge id ∈ ws) before
      ((db.performAll txId ws).edges.get id) := by
  intro ws
  induction ws with
  | nil => exact fun _ _ h => h.congr (by simp)
  | cons w ws ih =>
    intro deleted db hres h
    rw [Clients.filterMap_cons_toList, List.append_assoc] at hres
    have hwrite : EdgeSince snapshot (deleted ∨ w = .deleteEdge id) before
        ((db.perform txId w).edges.get id) := by
      rw [RecordStore.get, perform_edge]
      refine EdgeSince.write h hlt fun hnew => ?_
      -- the id of an insert to come is reserved, so it is no key
      exact RecordStore.Reserving.absent hres (by rw [hnew]; exact List.mem_cons_self)
    refine (ih (db.perform txId w) ((Clients.perform_reserving db txId w).2 _ hres) hwrite).congr ?_
    rw [List.mem_cons, or_assoc, eq_comm (a := w)]

/-! ## A history -/

namespace History

/-- One of the transactions deletes the edge. -/
def EdgeDeleted (id : EdgeId) (txs : List Transaction) : Prop := ∃ tx ∈ txs, id ∈ tx.edgeDeletes

/-- The reader sees that the edge has been deleted. -/
def SeesEdgeDeleted (r : Transaction) (db : Database) (id : EdgeId) : Prop :=
  ∃ e, db.edges.get id = some e ∧ e.createdTx ≤ r.snapshot ∧ e.deletedTx ≤ r.snapshot

end History

/-- **Edge reads are repeatable within a snapshot**, whatever commits between two points of a
history, exactly where no edge that the reader sees deleted is deleted once more. -/
theorem edge_reads_repeatable_iff {db : Database} (hnext : 0 < db.txManager.nextTxId)
    (hn : db.nodes.Sound) (he : RecordStore.Sound db.edges) {steps later : List HistoryStep}
    {h₁ h₂ : History}
    (hg₁ : Guarded History.step History.HasNumbers (.start db) steps)
    (hrun₁ : run History.step (.start db) steps = some h₁)
    (hg₂ : Guarded History.step History.HasNumbers h₁ later)
    (hrun₂ : run History.step h₁ later = some h₂)
    {r : Transaction} (hr : r ∈ h₁.readers) (id : EdgeId) :
    ∃ between, h₂.committed = h₁.committed ++ between ∧
      ((r.getEdge h₂.db id).map Edge.undeleted = (r.getEdge h₁.db id).map Edge.undeleted ↔
        ¬ (History.EdgeDeleted id between ∧ History.SeesEdgeDeleted r h₁.db id)) := by
  have hc₁ : h₁.Consistent := guarded_invariant (fun _ _ _ hc hg hs => hc.step hg hs)
    (History.start_consistent hnext hn he) hg₁ hrun₁
  have hstart : EdgeSince r.snapshot (History.EdgeDeleted id []) (h₁.db.edges.get id)
      (h₁.db.edges.get id) :=
    (EdgeSince.refl r.snapshot _).congr (by simp [History.EdgeDeleted])
  obtain ⟨between, hcommitted, hsince⟩ : ∃ between, h₂.committed = h₁.committed ++ between ∧
      EdgeSince r.snapshot (History.EdgeDeleted id between) (h₁.db.edges.get id)
        (h₂.db.edges.get id) := by
    refine History.between_points (P := fun between db => EdgeSince r.snapshot
      (History.EdgeDeleted id between) (h₁.db.edges.get id) (db.edges.get id)) ?_ ?_ hc₁ hr hstart
      hg₂ hrun₂
    · intro between db db' _ hedges h
      have hedge : db'.edges.get id = db.edges.get id := congrArg (·.get id) hedges
      exact hedge ▸ h
    · intro between h i tx m hc htx hlt hsince
      have hreserving := RecordStore.Reserving.perm hc.reserved.edges
        (Clients.reserved_rollback (s := h.clients) htx h.db)
      refine (Database.edgeSince_performAll hlt _ (h.db.withManager m) hreserving hsince).congr ?_
      rw [Transaction.deleteEdge_mem_writes]
      simp [History.EdgeDeleted, or_and_right, exists_or]
  exact ⟨between, hcommitted, hsince.edgeAt_eq_iff⟩

end Persistent

/-- An edge is created and committed, and a reader begins. -/
def createEdgeAndRead : List HistoryStep :=
  [.beginWrite, .call 0 (.createEdge 0 0 7 0), .commit 0, .beginRead]

def deleteTheEdge : List HistoryStep := [.beginWrite, .call 0 (.deleteEdge 0), .commit 0]

/-- The history at the reader's begin, and after the delete. -/
def History.atEdgeRead : History :=
  (run History.step (.start Database.memory) createEdgeAndRead).getD (.start Database.memory)

def History.atEdgeDelete : History :=
  (run History.step .atEdgeRead deleteTheEdge).getD .atEdgeRead

/-- Deleted meanwhile, it is still read. -/
theorem edge_reads_repeatable_iff_deleted :
    ((Transaction.new 0 1 false).getEdge History.atEdgeDelete.db 0).map Edge.undeleted
      = ((Transaction.new 0 1 false).getEdge History.atEdgeRead.db 0).map Edge.undeleted := by
  have hg₁ : Guarded History.step History.HasNumbers (.start Database.memory) createEdgeAndRead :=
    Guarded.cons rfl (show (1 : UInt64) < maxTxId by decide)
      (Guarded.cons rfl (show (0 : UInt64) < maxTxId by decide)
        (Guarded.cons rfl trivial (Guarded.cons rfl trivial trivial)))
  have hg₂ : Guarded History.step History.HasNumbers .atEdgeRead deleteTheEdge :=
    Guarded.cons rfl (show (2 : UInt64) < maxTxId by decide)
      (Guarded.cons rfl trivial (Guarded.cons rfl trivial trivial))
  have hrun₁ : run History.step (.start Database.memory) createEdgeAndRead = some .atEdgeRead := rfl
  have hrun₂ : run History.step .atEdgeRead deleteTheEdge = some .atEdgeDelete := rfl
  obtain ⟨between, -, hiff⟩ := edge_reads_repeatable_iff (by decide)
    RecordStore.new_sound RecordStore.new_sound hg₁ hrun₁ hg₂ hrun₂
    (r := Transaction.new 0 1 false) List.mem_cons_self 0
  refine hiff.mpr ?_
  rintro ⟨-, e, hedge, -, hle⟩
  obtain rfl : Edge.new 0 0 0 7 0 1 = e := Option.some.inj hedge
  exact absurd hle (by decide)

end LightGraph
