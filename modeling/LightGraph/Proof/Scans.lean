import LightGraph.Proof.CompactedReads
import LightGraph.Proof.Repeatable

/-!
# Scans at a snapshot

A scan has no id to ask for, so the question is not only whether the nodes it found are still as
they were: none may join them. None does that is new, since its creator's number is above the
snapshot. Two things change a scan for all that. An update takes its node out of every older
snapshot, and a second delete puts a node back that the snapshot had lost.
-/

set_option autoImplicit false

namespace LightGraph

open Lib

/-- The node as it was, and as it is; `updated` and `deleted` say what was done to it in between. -/
inductive NodeSince (snapshot : TxId) (updated deleted : Prop) :
    Option Node → Option Node → Prop
  | hidden {before node : Option Node} (hwhy : updated ∨ before = none)
      (hnew : Hidden snapshot node) : NodeSince snapshot updated deleted before node
  | kept {n m : Node} (hupdated : ¬ updated) (hdeleted : ¬ deleted)
      (hcreated : m.createdTx = n.createdTx) (hsame : m.deletedTx = n.deletedTx) :
      NodeSince snapshot updated deleted (some n) (some m)
  | stamped {n m : Node} (hupdated : ¬ updated) (hdeleted : deleted)
      (hcreated : m.createdTx = n.createdTx) (hlt : snapshot < m.deletedTx) :
      NodeSince snapshot updated deleted (some n) (some m)

namespace NodeSince

variable {snapshot : TxId} {updated updated' deleted deleted' : Prop} {before node : Option Node}

theorem refl (snapshot : TxId) : ∀ node, NodeSince snapshot False False node node
  | none => .hidden (Or.inr rfl) fun _ h => absurd h (by simp)
  | some _ => .kept id id rfl rfl

theorem congr (h : NodeSince snapshot updated deleted before node) (hup : updated ↔ updated')
    (hdel : deleted ↔ deleted') : NodeSince snapshot updated' deleted' before node :=
  propext hup ▸ propext hdel ▸ h

/-! ## One write -/

section Writes
variable {txId : TxId} {m : Maps} {id : NodeId} {w : StoreWrite}

/-- The write is an update of the node's labels. -/
def Updates (id : NodeId) (w : StoreWrite) : Prop := ∃ labels, w = .updateLabels id labels

theorem other (h : NodeSince snapshot updated deleted before node) (hup : ¬ Updates id w)
    (hdel : w ≠ .deleteNode id) :
    NodeSince snapshot (updated ∨ Updates id w) (deleted ∨ w = .deleteNode id) before node :=
  h.congr (by simp [hup]) (by simp [hdel])

theorem write (h : NodeSince snapshot updated deleted before (m.nodes.get id))
    (hlt : snapshot < txId) (hinsert : w.newNode? = some id → m.nodes.get id = none) :
    NodeSince snapshot (updated ∨ Updates id w) (deleted ∨ w = .deleteNode id) before
      ((m.write txId w).nodes.get id) := by
  cases w with
  | insertEdge id' src dst etype propsRow => exact h.other (by simp [Updates]) (by simp)
  | deleteEdge id' => exact h.other (by simp [Updates]) (by simp)
  | insertProp label prop row value => exact h.other (by simp [Updates]) (by simp)
  | insertNode id' labels propsRow =>
    rw [Maps.write, FiniteMap.get_alter]
    split
    · rename_i heq
      rw [hinsert (congrArg some heq.symm)] at h
      cases h with
      | hidden hwhy _ =>
        refine .hidden (hwhy.imp_left Or.inl) fun n hn => ?_
        rw [← Option.some.inj hn]
        exact hlt
    · exact h.other (by simp [Updates]) (by simp)
  | updateLabels id' labels =>
    by_cases heq : id' = id
    · subst heq
      exact .hidden (Or.inl (Or.inr ⟨labels, rfl⟩)) (hidden_updateLabels labels hlt)
    · rw [Maps.write, FiniteMap.get_alter, if_neg (Ne.symm heq)]
      exact h.other (by simp [Updates, heq]) (by simp)
  | deleteNode id' =>
    by_cases heq : id' = id
    · subst heq
      rw [Maps.write, FiniteMap.get_alter, if_pos rfl]
      generalize m.nodes.get id' = now at h
      cases h with
      | hidden hwhy hnew =>
        refine .hidden (hwhy.imp_left Or.inl) fun n hn => ?_
        obtain ⟨n', hn', rfl⟩ := Option.map_eq_some_iff.mp hn
        exact hnew n' hn'
      | kept hup _ hcreated _ =>
        exact .stamped (by simp [hup, Updates]) (Or.inr rfl) hcreated hlt
      | stamped hup _ hcreated _ =>
        exact .stamped (by simp [hup, Updates]) (Or.inr rfl) hcreated hlt
    · rw [Maps.write, FiniteMap.get_alter, if_neg (Ne.symm heq)]
      exact h.other (by simp [Updates]) (by simp [heq])

end Writes

/-- **What a scan still finds, and what it finds again.** -/
theorem alive_iff (h : NodeSince snapshot updated deleted before node) :
    (∃ m, node = some m ∧ m.isAlive snapshot = true) ↔ ¬ updated ∧
      ((∃ n, before = some n ∧ n.isAlive snapshot = true) ∨
        (deleted ∧ ∃ n, before = some n ∧ n.createdTx ≤ snapshot ∧ n.deletedTx ≤ snapshot)) := by
  cases h with
  | hidden hwhy hnew =>
    refine iff_of_false ?_ ?_
    · rintro ⟨m, hm, halive⟩
      exact UInt64.not_lt.mpr (aliveAt_iff.mp halive).1 (hnew m hm)
    · rintro ⟨hup, hbefore⟩
      obtain rfl := hwhy.resolve_left hup
      rcases hbefore with ⟨n, hn, -⟩ | ⟨-, n, hn, -⟩ <;> exact absurd hn (by simp)
  | kept hup hdel hcreated hsame =>
    simp only [hup, hdel, Option.some.injEq, exists_eq_left', Node.isAlive, hcreated, hsame,
      not_false_eq_true, true_and, false_and, or_false]
  | stamped hup hdel hcreated hlt =>
    rename_i n m
    simp only [hup, hdel, Option.some.injEq, exists_eq_left', Node.isAlive, aliveAt_iff, hcreated,
      hlt, not_false_eq_true, true_and, and_true]
    constructor
    · intro hle
      by_cases hgone : n.deletedTx ≤ snapshot
      · exact Or.inr ⟨hle, hgone⟩
      · exact Or.inl ⟨hle, UInt64.not_le.mp hgone⟩
    · rintro (⟨hle, -⟩ | ⟨hle, -⟩) <;> exact hle

end NodeSince

/-! ## The writes of a commit -/

section Persistent
variable [Bincode Node] [Bincode Edge] [Bincode (Option Value)]
variable {snapshot txId : TxId} {id : NodeId}

theorem Database.nodeSince_performAll {before : Option Node} (hlt : snapshot < txId)
    (ids : List NodeId) : ∀ {ws : List StoreWrite} {updated deleted : Prop} (db : Database),
    db.nodes.Reserving (ws.filterMap StoreWrite.newNode? ++ ids) →
    NodeSince snapshot updated deleted before (db.nodes.get id) →
    NodeSince snapshot (updated ∨ ∃ w ∈ ws, NodeSince.Updates id w)
      (deleted ∨ StoreWrite.deleteNode id ∈ ws) before ((db.performAll txId ws).nodes.get id) := by
  intro ws
  induction ws with
  | nil => exact fun _ _ h => h.congr (by simp) (by simp)
  | cons w ws ih =>
    intro updated deleted db hres h
    rw [Clients.filterMap_cons_toList, List.append_assoc] at hres
    have hwrite : NodeSince snapshot (updated ∨ NodeSince.Updates id w)
        (deleted ∨ w = .deleteNode id) before ((db.perform txId w).nodes.get id) := by
      rw [RecordStore.get, perform_node]
      refine NodeSince.write h hlt fun hnew => ?_
      -- the id of an insert to come is reserved, so it is no key
      exact RecordStore.Reserving.absent hres (by rw [hnew]; exact List.mem_cons_self)
    refine (ih (db.perform txId w) ((Clients.perform_reserving db txId w).1 _ hres)
      hwrite).congr ?_ ?_
    · rw [List.exists_mem_cons_iff, or_assoc]
    · rw [List.mem_cons, or_assoc, eq_comm (a := w)]

omit [Bincode Node] [Bincode Edge] [Bincode (Option Value)] in
theorem Transaction.updates_mem_writes {tx : Transaction} :
    (∃ w ∈ tx.writes, NodeSince.Updates id w) ↔ tx.UpdatesLabels id := by
  constructor
  · rintro ⟨-, hw, labels, rfl⟩
    exact ⟨labels, Transaction.updateLabels_mem_writes.mp hw⟩
  · rintro ⟨labels, hlabels⟩
    exact ⟨_, Transaction.updateLabels_mem_writes.mpr hlabels, labels, rfl⟩

/-! ## A history -/

namespace History

/-- One of the transactions updates the node's labels. -/
def NodeUpdated (id : NodeId) (txs : List Transaction) : Prop := ∃ tx ∈ txs, tx.UpdatesLabels id

def NodeDeleted (id : NodeId) (txs : List Transaction) : Prop := ∃ tx ∈ txs, id ∈ tx.nodeDeletes

/-- The reader sees that the node has been deleted, and it is deleted once more. -/
def NodeRevived (r : Transaction) (db : Database) (id : NodeId) (txs : List Transaction) : Prop :=
  NodeDeleted id txs ∧
    ∃ n, db.nodes.get id = some n ∧ n.createdTx ≤ r.snapshot ∧ n.deletedTx ≤ r.snapshot

end History

/-- **A scan shows no phantoms.** Between two points of a history, whatever commits, a reader's scan
loses exactly the nodes whose labels are updated and gains exactly those it saw deleted that are
deleted once more and not relabelled: one that is both stays out. Where there are neither, the two
scans are the same but for their order. -/
theorem scans_show_no_phantoms {db : Database} (hnext : 0 < db.txManager.nextTxId)
    (hn : db.nodes.Sound) (he : RecordStore.Sound db.edges) {steps later : List HistoryStep}
    {h₁ h₂ : History}
    (hg₁ : Guarded History.step History.HasNumbers (.start db) steps)
    (hrun₁ : run History.step (.start db) steps = some h₁)
    (hg₂ : Guarded History.step History.HasNumbers h₁ later)
    (hrun₂ : run History.step h₁ later = some h₂)
    {r : Transaction} (hr : r ∈ h₁.readers) (order order' : FiniteMap.IterOrder NodeId Node) :
    ∃ between, h₂.committed = h₁.committed ++ between ∧
      (∀ id, id ∈ h₂.db.nodes.visibleNodes order' r.snapshot ↔
        ¬ History.NodeUpdated id between ∧ (id ∈ h₁.db.nodes.visibleNodes order r.snapshot ∨
          History.NodeRevived r h₁.db id between)) ∧
      ((∀ id ∈ h₁.db.nodes.visibleNodes order r.snapshot, ¬ History.NodeUpdated id between) →
        (∀ id, ¬ History.NodeRevived r h₁.db id between) →
        (h₂.db.nodes.visibleNodes order' r.snapshot).Perm
            (h₁.db.nodes.visibleNodes order r.snapshot) ∧
          h₂.db.nodes.visibleCount order' r.snapshot
            = h₁.db.nodes.visibleCount order r.snapshot) := by
  have hc₁ : h₁.Consistent := guarded_invariant (fun _ _ _ hc hg hs => hc.step hg hs)
    (History.start_consistent hnext hn he) hg₁ hrun₁
  have hstart : ∀ id, NodeSince r.snapshot (History.NodeUpdated id []) (History.NodeDeleted id [])
      (h₁.db.nodes.get id) (h₁.db.nodes.get id) := fun id =>
    (NodeSince.refl r.snapshot _).congr (by simp [History.NodeUpdated])
      (by simp [History.NodeDeleted])
  obtain ⟨between, hcommitted, hsince⟩ : ∃ between, h₂.committed = h₁.committed ++ between ∧
      ∀ id, NodeSince r.snapshot (History.NodeUpdated id between) (History.NodeDeleted id between)
        (h₁.db.nodes.get id) (h₂.db.nodes.get id) := by
    refine History.between_points (P := fun between db => ∀ id, NodeSince r.snapshot
      (History.NodeUpdated id between) (History.NodeDeleted id between) (h₁.db.nodes.get id)
      (db.nodes.get id)) ?_ ?_ hc₁ hr hstart hg₂ hrun₂
    · intro between db db' hnodes _ h id
      have hnode : db'.nodes.get id = db.nodes.get id := congrArg (·.get id) hnodes
      exact hnode ▸ h id
    · intro between h i tx m hc htx hlt hsince id
      have hreserving := hc.reserved.nodes.perm
        (Clients.reserved_rollback (s := h.clients) htx h.db)
      refine (Database.nodeSince_performAll hlt _ (h.db.withManager m) hreserving
        (hsince id)).congr ?_ ?_
      · rw [Transaction.updates_mem_writes]
        simp [History.NodeUpdated, Transaction.UpdatesLabels, or_and_right, exists_or]
      · rw [Transaction.deleteNode_mem_writes]
        simp [History.NodeDeleted, or_and_right, exists_or]
  have hscan : ∀ id, id ∈ h₂.db.nodes.visibleNodes order' r.snapshot ↔
      ¬ History.NodeUpdated id between ∧ (id ∈ h₁.db.nodes.visibleNodes order r.snapshot ∨
        History.NodeRevived r h₁.db id between) := by
    intro id
    rw [NodeStore.mem_visibleNodes, NodeStore.mem_visibleNodes]
    exact (hsince id).alive_iff
  refine ⟨between, hcommitted, hscan, fun hupdated hrevived => ?_⟩
  have hperm : (h₂.db.nodes.visibleNodes order' r.snapshot).Perm
      (h₁.db.nodes.visibleNodes order r.snapshot) := by
    refine (List.perm_ext_iff_of_nodup (h₂.db.nodes.nodup_visibleNodes order' r.snapshot)
      (h₁.db.nodes.nodup_visibleNodes order r.snapshot)).mpr fun id => ?_
    rw [hscan id]
    constructor
    · rintro ⟨-, hid⟩
      exact hid.resolve_right (hrevived id)
    · exact fun hid => ⟨hupdated id hid, Or.inl hid⟩
  have hcount := hperm.length_eq
  rw [NodeStore.visibleNodes, NodeStore.visibleNodes, List.length_map, List.length_map] at hcount
  exact ⟨hperm, hcount⟩

end Persistent

/-- A node is created and another relabelled while the reader reads. -/
def createAndRelabel : List HistoryStep :=
  [.beginWrite, .call 0 (.createNode [5] 0), .call 0 (.updateNodeLabels 0 [99]), .commit 0]

def createTwoAndRead : List HistoryStep :=
  [.beginWrite, .call 0 (.createNode [0] 0), .call 0 (.createNode [1] 0), .commit 0, .beginRead]

def History.atScan : History :=
  (run History.step (.start Database.memory) createTwoAndRead).getD (.start Database.memory)

def History.afterScan : History := (run History.step .atScan createAndRelabel).getD .atScan

/-- Of the two nodes the relabelled one leaves the scan, and the one created meanwhile does not join
it. -/
theorem scans_show_no_phantoms_two :
    (History.afterScan.db.nodes.visibleNodes (.choice NodeId Node) 1).Perm [1] := by
  have hg₁ : Guarded History.step History.HasNumbers (.start Database.memory) createTwoAndRead :=
    Guarded.cons rfl (show (1 : UInt64) < maxTxId by decide)
      (Guarded.cons rfl (show (0 : UInt64) < maxTxId by decide)
        (Guarded.cons rfl (show (1 : UInt64) < maxTxId by decide)
          (Guarded.cons rfl trivial (Guarded.cons rfl trivial trivial))))
  have hg₂ : Guarded History.step History.HasNumbers .atScan createAndRelabel :=
    Guarded.cons rfl (show (2 : UInt64) < maxTxId by decide)
      (Guarded.cons rfl (show (2 : UInt64) < maxTxId by decide)
        (Guarded.cons rfl trivial (Guarded.cons rfl trivial trivial)))
  have hrun₁ : run History.step (.start Database.memory) createTwoAndRead = some .atScan := rfl
  have hrun₂ : run History.step .atScan createAndRelabel = some .afterScan := rfl
  obtain ⟨between, hbetween, hscan, -⟩ := scans_show_no_phantoms (by decide)
    RecordStore.new_sound RecordStore.new_sound hg₁ hrun₁ hg₂ hrun₂
    (r := Transaction.new 0 1 false) List.mem_cons_self (.choice NodeId Node) (.choice NodeId Node)
  obtain rfl : History.afterScan.committed.drop 1 = between := congrArg (List.drop 1) hbetween
  have hupdated : ∀ id, History.NodeUpdated id (History.afterScan.committed.drop 1) ↔ id = 0 := by
    intro id
    constructor
    · rintro ⟨tx, htx, labels, hlabels⟩
      obtain rfl := List.mem_singleton.mp htx
      exact (Prod.mk.inj (List.mem_singleton.mp hlabels)).1
    · rintro rfl
      exact ⟨_, List.mem_singleton.mpr rfl, [99], List.mem_singleton.mpr rfl⟩
  have hrevived : ∀ id, ¬ History.NodeRevived (Transaction.new 0 1 false) History.atScan.db id
      (History.afterScan.committed.drop 1) := by
    rintro id ⟨⟨tx, htx, hdeletes⟩, -⟩
    obtain rfl := List.mem_singleton.mp htx
    exact absurd hdeletes List.not_mem_nil
  have hrecords : History.atScan.db.nodes.records
      = ((∅ : FiniteMap NodeId Node).put 0 (Node.new 0 [0] 0 1)).put 1 (Node.new 1 [1] 0 1) := rfl
  have hbefore : ∀ id, id ∈ History.atScan.db.nodes.visibleNodes (.choice NodeId Node) 1 ↔
      id = 1 ∨ id = 0 := by
    intro id
    rw [NodeStore.mem_visibleNodes, hrecords, FiniteMap.get_put, FiniteMap.get_put]
    by_cases hone : id = 1
    · simp [hone, Node.new, Node.isAlive, aliveAt, maxTxId]
    · by_cases hzero : id = 0
      · simp [hzero, Node.new, Node.isAlive, aliveAt, maxTxId]
      · simp [hone, hzero]
  have hnodup := NodeStore.nodup_visibleNodes (.choice NodeId Node) History.afterScan.db.nodes 1
  refine (List.perm_ext_iff_of_nodup hnodup (by simp)).mpr fun id => ?_
  refine (hscan id).trans ?_
  rw [hupdated, or_iff_left (hrevived id)]
  refine (and_congr_right fun _ => hbefore id).trans ?_
  constructor
  · rintro ⟨hzero, hid⟩
    exact List.mem_singleton.mpr (hid.resolve_right hzero)
  · intro hid
    obtain rfl := List.mem_singleton.mp hid
    exact ⟨by decide, Or.inl rfl⟩

end LightGraph
