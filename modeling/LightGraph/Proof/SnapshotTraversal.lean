import LightGraph.Proof.Chains
import LightGraph.Proof.FreeList
import LightGraph.Storage.Bincode

/-!
# What an older reader sees of a chain

A reader keeps the head of a chain of outgoing edges and its snapshot, and others go on: they link
new edges in front, delete edges, and unlink such as the reader no longer sees. What the reader is
shown is the chain without the edges that are not alive at the snapshot, and there is one way to
change that: `soft_delete` writes its stamp over whatever stamp is there. An edge that was deleted
for the reader is deleted later then, and shown once more.
-/

set_option autoImplicit false

namespace LightGraph

open Lib

/-- A store, and the head of one chain of outgoing edges. -/
structure OutChain where
  store : EdgeStore
  head : EdgeId

inductive OutChainStep
  /-- `insert_edge`, and `link_into_chains` at the head -/
  | insert (src dst : NodeId) (etype : TypeId) (propsRow : UInt32) (txId : TxId)
      (dstFirstIn : EdgeId)
  | softDelete (id : EdgeId) (txId : TxId)
  | unlink (id : EdgeId) (dstFirstIn : EdgeId)

namespace OutChain

def step [Bincode Edge] (s : OutChain) : OutChainStep → Option OutChain
  | .insert src dst etype propsRow txId dstFirstIn =>
    let (id, store) := EdgeStore.insertEdge s.store src dst etype propsRow txId
    let (store, head, _) := store.linkIntoChains id s.head dstFirstIn
    some { store, head }
  | .softDelete id txId => some { s with store := (EdgeStore.softDelete s.store id txId).1 }
  | .unlink id dstFirstIn =>
    match s.store.unlinkFromChains id s.head dstFirstIn with
    | none => none
    | some (store, head, _, _) => some { store, head }

/-- What a reader with the snapshot is shown. -/
def visible (s : OutChain) (snapshot : TxId) : Option (List EdgeId) :=
  EdgeStore.outEdgesVisible s.store s.head snapshot

/-- The edges of the chain, from the head to `NULL_EDGE`. -/
def Holds (s : OutChain) (edges : List EdgeId) : Prop :=
  Segment (follow .outgoing s.store.records) s.head edges nullEdge

/-- The steps are those of transactions that come after the snapshot, on edges of the chain; what
is unlinked is dead at the snapshot. -/
def Later (snapshot : TxId) (s : OutChain) : OutChainStep → Prop
  | .insert _ _ _ _ txId _ => snapshot < txId
  | .softDelete id txId => snapshot < txId ∧ ∃ edges, s.Holds edges ∧ id ∈ edges
  | .unlink id _ => ∃ e, s.store.records.get id = some e ∧ e.isAlive snapshot = false

/-- An edge that was deleted for the snapshot is not deleted again; an edge that is inserted gets
an id that is not in the chain; and no edge has the id `NULL_EDGE`. -/
def NoRevival (snapshot : TxId) (s : OutChain) : OutChainStep → Prop
  | .insert _ _ _ _ _ _ =>
    s.store.allocId.1 ≠ nullEdge ∧ ∀ edges, s.Holds edges → s.store.allocId.1 ∉ edges
  | .softDelete id _ =>
    ∀ e, s.store.records.get id = some e → e.createdTx ≤ snapshot → snapshot < e.deletedTx
  | .unlink id _ => id ≠ nullEdge

/-- The edge is stored, and alive at the snapshot. -/
def shown (records : FiniteMap EdgeId Edge) (snapshot : TxId) (id : EdgeId) : Bool :=
  (records.get id).any fun e => e.isAlive snapshot

variable {s t : OutChain} {edges : List EdgeId} {snapshot : TxId}

/-- A reader is shown the live edges of the chain, in its order. -/
theorem Holds.visible_eq (h : s.Holds edges) :
    s.visible snapshot = some (edges.filter (shown s.store.records snapshot)) := by
  have hwalk := h.walk_eq (follow_null .outgoing s.store.records)
  have hcollect := EdgeStore.collect_eq .outgoing (fun e => e.isAlive snapshot) s.store
    (edges.length + 1) s.head
  rw [hwalk, Option.map_some] at hcollect
  exact EdgeStore.collect_rounds hcollect

theorem shown_congr {records records' : FiniteMap EdgeId Edge} {x : EdgeId}
    (h : (records'.get x).map (fun e => e.isAlive snapshot)
      = (records.get x).map fun e => e.isAlive snapshot) :
    shown records' snapshot x = shown records snapshot x := by
  have hany : ∀ o : Option Edge, (o.any fun e => e.isAlive snapshot)
      = (o.map fun e => e.isAlive snapshot).any id := by
    intro o
    cases o with
    | none => rfl
    | some e => rfl
  rw [shown, shown, hany, hany, h]

/-- A step keeps what the reader is shown. -/
def Keeps (snapshot : TxId) (s t : OutChain) (edges : List EdgeId) : Prop :=
  ∃ edges', t.Holds edges' ∧
    edges'.filter (shown t.store.records snapshot) = edges.filter (shown s.store.records snapshot)

/-- A chain holds stored edges only. -/
theorem notMem_of_absent {id : EdgeId} (h : s.Holds edges) (hget : s.store.records.get id = none) :
    id ∉ edges := by
  intro hid
  obtain ⟨x, hx⟩ := Option.ne_none_iff_exists'.mp (Segment.follows h hid)
  obtain ⟨-, e, he, -⟩ := follow_inv hx
  rw [hget] at he
  exact Option.some_ne_none e he.symm

/-! ## The three steps -/

/-- Taking an edge out of a chain touches no stamp. -/
theorem unlinkFrom_shown {side : ChainSide} {u v : EdgeStore} {id next head head' : EdgeId}
    {pred : Option EdgeId} (h : u.unlinkFrom side id next head = some (v, head', pred))
    (x : EdgeId) : shown v.records snapshot x = shown u.records snapshot x := by
  rcases EdgeStore.unlinkFrom_cases h with rfl | ⟨p, -, rfl⟩
  · rfl
  · apply shown_congr
    rw [EdgeStore.modifySilently_records]
    apply FiniteMap.map_get_alter
    intro e
    cases side <;> rfl

/-- A chain that does not hold the edge keeps its head and its cells. -/
theorem Holds.unlinkOut_of_notMem (h : s.Holds edges) {id next head : EdgeId} {u : EdgeStore}
    {pred : Option EdgeId} (hnull : id ≠ nullEdge) (hid : id ∉ edges)
    (hrun : s.store.unlinkFrom .outgoing id next s.head = some (u, head, pred)) :
    Holds ⟨u, head⟩ edges := by
  have hhead : s.head ≠ id := by
    rintro rfl
    cases edges with
    | nil => exact hnull h
    | cons x edges => exact hid (h.1 ▸ List.mem_cons_self)
  have hsame : head = s.head := by
    unfold EdgeStore.unlinkFrom at hrun
    rw [if_neg hhead] at hrun
    split at hrun
    · exact absurd hrun nofun
    · exact (Prod.mk.inj (Prod.mk.inj (Option.some.inj hrun)).2).1.symm
    · exact (Prod.mk.inj (Prod.mk.inj (Option.some.inj hrun)).2).1.symm
  subst hsame
  rcases EdgeStore.unlinkFrom_cases hrun with rfl | ⟨p, hp, rfl⟩
  · exact h
  · -- the cell that points at the edge is in no chain that ends without it
    refine Segment.congr h fun x hx => follow_congr ?_
    have hne : x ≠ p := by
      rintro rfl
      rcases Segment.mem_or_stop h hx hp with hmem | hstop
      · exact hid hmem
      · exact hnull hstop
    rw [EdgeStore.modifySilently_records, FiniteMap.get_alter, if_neg hne]

/-- The edge is taken out of the chain it is in. -/
theorem Holds.unlinkOut_of_mem {id head : EdgeId} {e : Edge} {u : EdgeStore} {pred : Option EdgeId}
    {a b : List EdgeId} (h : s.Holds (a ++ id :: b)) (hnull : id ≠ nullEdge)
    (hget : s.store.records.get id = some e)
    (hrun : s.store.unlinkFrom .outgoing id e.nextOut s.head = some (u, head, pred)) :
    Holds ⟨u, head⟩ (a ++ b) := by
  have hnext : follow .outgoing s.store.records id = some e.nextOut := follow_of_get hnull hget
  rcases List.eq_nil_or_concat a with rfl | ⟨a, p, rfl⟩
  · obtain ⟨hhead, y, hy, hb⟩ := h
    obtain rfl := Option.some.inj (hy.symm.trans hnext)
    rw [EdgeStore.unlinkFrom, if_pos hhead] at hrun
    obtain ⟨rfl, hrest⟩ := Prod.mk.inj (Option.some.inj hrun)
    obtain ⟨rfl, -⟩ := Prod.mk.inj hrest
    exact hb
  · rw [List.concat_eq_append, List.append_assoc, List.singleton_append] at h ⊢
    obtain ⟨hrun', hpred⟩ := EdgeStore.unlinkFrom_middle e.nextOut h
    obtain ⟨rfl, hrest⟩ := Prod.mk.inj (Option.some.inj (hrun'.symm.trans hrun))
    obtain ⟨rfl, -⟩ := Prod.mk.inj hrest
    obtain ⟨hpnull, pedge, hpedge, -⟩ := follow_inv hpred
    have hrecords : (s.store.modifySilently p (ChainSide.outgoing.setNext e.nextOut)).records
        = s.store.records.put p (ChainSide.outgoing.setNext e.nextOut pedge) := by
      simp only [EdgeStore.modifySilently, hpedge]
    show Segment (follow .outgoing _) s.head _ nullEdge
    rw [hrecords, follow_put hpnull, ChainSide.next_setNext]
    exact Segment.remove h (Segment.nodup h (follow_null .outgoing _)) hnext

section Persistent
variable [Bincode Edge]

/-- An insert with its link writes one record. -/
theorem insert_eq (s : OutChain) (src dst : NodeId) (etype : TypeId) (propsRow : UInt32)
    (txId : TxId) (dstFirstIn : EdgeId) :
    ∃ t, s.step (.insert src dst etype propsRow txId dstFirstIn) = some t ∧
      t.head = s.store.allocId.1 ∧
      t.store.records = s.store.records.put s.store.allocId.1
        { Edge.new s.store.allocId.1 src dst etype propsRow txId with
          nextOut := s.head, nextIn := dstFirstIn } := by
  have hinsert : (EdgeStore.insertEdge s.store src dst etype propsRow txId).2.records
      = s.store.records.put s.store.allocId.1
          (Edge.new s.store.allocId.1 src dst etype propsRow txId) :=
    RecordStore.insert_records _ _
  refine ⟨_, rfl, rfl, ?_⟩
  show (EdgeStore.linkIntoChains (EdgeStore.insertEdge s.store src dst etype propsRow txId).2
    s.store.allocId.1 s.head dstFirstIn).1.records = _
  rw [EdgeStore.linkIntoChains_records, hinsert]
  apply FiniteMap.ext
  intro id
  rw [FiniteMap.get_alter]
  split
  · rename_i hid
    rw [hid, FiniteMap.get_put_self, FiniteMap.get_put_self]
    rfl
  · rename_i hid
    rw [FiniteMap.get_put_ne _ _ hid, FiniteMap.get_put_ne _ _ hid]

theorem Holds.insert (h : s.Holds edges) {src dst : NodeId} {etype : TypeId} {propsRow : UInt32}
    {txId : TxId} {dstFirstIn : EdgeId} (hlater : snapshot < txId)
    (hnull : s.store.allocId.1 ≠ nullEdge) (hnew : s.store.allocId.1 ∉ edges)
    (ht : s.step (.insert src dst etype propsRow txId dstFirstIn) = some t) :
    s.Keeps snapshot t edges := by
  obtain ⟨u, hu, hhead, hrecords⟩ := s.insert_eq src dst etype propsRow txId dstFirstIn
  obtain rfl : u = t := Option.some.inj (hu.symm.trans ht)
  have hother : ∀ id ∈ edges, u.store.records.get id = s.store.records.get id := by
    intro id hid
    rw [hrecords, FiniteMap.get_put_ne]
    rintro rfl
    exact hnew hid
  have hself := FiniteMap.get_put_self s.store.records s.store.allocId.1
    { Edge.new s.store.allocId.1 src dst etype propsRow txId with
      nextOut := s.head, nextIn := dstFirstIn }
  rw [← hrecords] at hself
  refine ⟨s.store.allocId.1 :: edges, ?_, ?_⟩
  · show Segment _ u.head _ _
    rw [hhead]
    refine Segment.cons (follow_of_get hnull hself) (h.congr fun id hid => ?_)
    exact follow_congr (by rw [hother id hid])
  · -- the new edge is too young
    have hdead : shown u.store.records snapshot s.store.allocId.1 = false := by
      rw [shown, hself, Option.any_some, Edge.isAlive, Bool.eq_false_iff, ne_eq, aliveAt_iff]
      intro hborn
      exact absurd hlater (UInt64.not_lt.mpr hborn.1)
    rw [List.filter_cons, hdead, if_neg Bool.false_ne_true]
    exact List.filter_congr fun id hid => shown_congr (by rw [hother id hid])

/-- The chain through a soft delete. -/
theorem Holds.ofSoftDelete (h : s.Holds edges) (id : EdgeId) (txId : TxId) :
    Holds { s with store := (EdgeStore.softDelete s.store id txId).1 } edges := by
  show Segment (follow .outgoing (EdgeStore.softDelete s.store id txId).1.records) _ _ _
  rw [EdgeStore.softDelete_follow]
  exact h

theorem Holds.softDelete (h : s.Holds edges) {id : EdgeId} {txId : TxId} (hlater : snapshot < txId)
    (halive : ∀ e, s.store.records.get id = some e → e.createdTx ≤ snapshot →
      snapshot < e.deletedTx)
    (ht : s.step (.softDelete id txId) = some t) : s.Keeps snapshot t edges := by
  obtain rfl := Option.some.inj ht
  refine ⟨edges, h.ofSoftDelete id txId, List.filter_congr fun x _ => ?_⟩
  rw [shown, EdgeStore.softDelete_records, FiniteMap.get_alter]
  split
  · rename_i hx
    subst hx
    cases hget : s.store.records.get x with
    | none =>
      rw [shown, hget]
      rfl
    | some e =>
      rw [shown, hget, Option.map_some, Option.any_some, Option.any_some, Bool.eq_iff_iff,
        Edge.isAlive, Edge.isAlive, aliveAt_iff, aliveAt_iff]
      exact and_congr_right fun hborn => iff_of_true hlater (halive e hget hborn)
  · rfl

theorem Holds.unlink (h : s.Holds edges) {id dstFirstIn : EdgeId} {e : Edge}
    (hnull : id ≠ nullEdge) (hget : s.store.records.get id = some e)
    (hdead : e.isAlive snapshot = false) (ht : s.step (.unlink id dstFirstIn) = some t) :
    s.Keeps snapshot t edges := by
  unfold step EdgeStore.unlinkFromChains at ht
  simp only [hget] at ht
  cases hout : s.store.unlinkFrom .outgoing id e.nextOut s.head with
  | none => simp [hout] at ht
  | some p =>
    obtain ⟨u, head, srcPred⟩ := p
    cases hin : u.unlinkFrom .incoming id e.nextIn dstFirstIn with
    | none => simp [hout, hin] at ht
    | some q =>
      obtain ⟨v, dstHead, dstPred⟩ := q
      simp only [hout, hin, Option.some.injEq] at ht
      subst ht
      -- the other side and the log leave the chain as it is
      have hback : ∀ edges', Holds ⟨u, head⟩ edges' →
          Holds ⟨(v.persistPred srcPred).persistPred dstPred, head⟩ edges' := by
        intro edges' h'
        refine Segment.congr h' fun x _ => follow_congr ?_
        rw [EdgeStore.persistPred_records, EdgeStore.persistPred_records]
        exact (EdgeStore.unlinkFrom_sameBut hin).next .outgoing (by decide) x
      have hshown : ∀ x, shown ((v.persistPred srcPred).persistPred dstPred).records snapshot x
          = shown s.store.records snapshot x := by
        intro x
        rw [EdgeStore.persistPred_records, EdgeStore.persistPred_records, unlinkFrom_shown hin,
          unlinkFrom_shown hout]
      by_cases hmem : id ∈ edges
      · obtain ⟨a, b, rfl⟩ := List.append_of_mem hmem
        refine ⟨a ++ b, hback _ (h.unlinkOut_of_mem hnull hget hout), ?_⟩
        have hunseen : shown s.store.records snapshot id = false := by
          rw [shown, hget]
          exact hdead
        rw [show shown ((v.persistPred srcPred).persistPred dstPred).records snapshot
            = shown s.store.records snapshot from funext hshown, List.filter_append,
          List.filter_append, List.filter_cons, hunseen, if_neg Bool.false_ne_true]
      · refine ⟨edges, hback _ (h.unlinkOut_of_notMem hnull hmem hout), ?_⟩
        exact List.filter_congr fun x _ => hshown x

/-- **One step** that comes later than the snapshot and revives nothing. -/
theorem Holds.step (h : s.Holds edges) {a : OutChainStep} (hlater : s.Later snapshot a)
    (hguard : s.NoRevival snapshot a) (ht : s.step a = some t) : s.Keeps snapshot t edges := by
  cases a with
  | insert src dst etype propsRow txId dstFirstIn =>
    exact h.insert hlater hguard.1 (hguard.2 edges h) ht
  | softDelete id txId => exact h.softDelete hlater.1 hguard ht
  | unlink id dstFirstIn =>
    obtain ⟨e, hget, hdead⟩ := hlater
    exact h.unlink hguard hget hdead ht

omit [Bincode Edge] in
/-- What the guard asks of an insert holds of a store whose free ids are free, while there are
ids left. -/
theorem NoRevival.insert_of_sound (h : RecordStore.Sound s.store)
    (hids : s.store.nextId < maxTxId) (src dst : NodeId) (etype : TypeId) (propsRow : UInt32)
    (txId : TxId) (dstFirstIn : EdgeId) :
    s.NoRevival snapshot (.insert src dst etype propsRow txId dstFirstIn) := by
  refine ⟨?_, fun edges hedges => notMem_of_absent hedges h.allocId_absent⟩
  unfold RecordStore.allocId
  split
  · rename_i id rest hfree
    have hbelow := h.freeBelow id (by rw [hfree]; exact List.mem_cons_self)
    exact UInt64.ne_of_lt (UInt64.lt_trans hbelow hids)
  · exact UInt64.ne_of_lt hids

/-- **A soft delete** by a later transaction keeps what is shown exactly when the edge was not
deleted for the reader before. -/
theorem Holds.softDelete_iff (h : s.Holds edges) {id : EdgeId} {txId : TxId} {e : Edge}
    (hlater : snapshot < txId) (hid : id ∈ edges) (hget : s.store.records.get id = some e)
    (ht : s.step (.softDelete id txId) = some t) :
    t.visible snapshot = s.visible snapshot ↔
      (e.createdTx ≤ snapshot → snapshot < e.deletedTx) := by
  constructor
  · intro hsame hborn
    by_contra hdeleted
    obtain rfl := Option.some.inj ht
    rw [(h.ofSoftDelete id txId).visible_eq, h.visible_eq, Option.some.injEq] at hsame
    -- the edge is shown now, and was not
    have hnow : id ∈ edges.filter
        (shown (EdgeStore.softDelete s.store id txId).1.records snapshot) := by
      refine List.mem_filter.mpr ⟨hid, ?_⟩
      rw [shown, EdgeStore.softDelete_records, FiniteMap.get_alter, if_pos rfl, hget,
        Option.map_some, Option.any_some, Edge.isAlive, aliveAt_iff]
      exact ⟨hborn, hlater⟩
    rw [hsame, List.mem_filter, shown, hget, Option.any_some, Edge.isAlive, aliveAt_iff] at hnow
    exact hdeleted hnow.2.2
  · intro halive
    have halive' : ∀ e, s.store.records.get id = some e → e.createdTx ≤ snapshot →
        snapshot < e.deletedTx := by
      intro e' hget'
      obtain rfl := Option.some.inj (hget.symm.trans hget')
      exact halive
    obtain ⟨edges', hchain, hsame⟩ := h.softDelete hlater halive' ht
    rw [hchain.visible_eq, h.visible_eq, hsame]

end Persistent
end OutChain

/-- **An older reader sees the same chain**, from its head as it is now, as long as no step shows it
an edge again that was deleted for it. -/
theorem traversal_stable [Bincode Edge] (snapshot : TxId) (s t : OutChain) (edges : List EdgeId)
    (steps : List OutChainStep) (hchain : s.Holds edges)
    (hlater : Guarded OutChain.step (OutChain.Later snapshot) s steps)
    (hguard : Guarded OutChain.step (OutChain.NoRevival snapshot) s steps)
    (hrun : run OutChain.step s steps = some t) : t.visible snapshot = s.visible snapshot := by
  induction steps generalizing s edges with
  | nil =>
    obtain rfl := Option.some.inj hrun
    rfl
  | cons a steps ih =>
    obtain ⟨u, hu, hrest⟩ := run_cons_inv hrun
    obtain ⟨edges', hchain', hsame⟩ := hchain.step hlater.1 hguard.1 hu
    rw [ih u edges' hchain' (hlater.2 u hu) (hguard.2 u hu) hrest, hchain'.visible_eq,
      hchain.visible_eq, hsame]

/-- Three edges, the one in the middle deleted by transaction 4. -/
def OutChain.threeEdges : OutChain :=
  (run OutChain.step ⟨EdgeStore.new, nullEdge⟩
    [.insert 1 2 0 0 1 nullEdge, .insert 1 3 0 0 2 nullEdge, .insert 1 4 0 0 3 nullEdge,
      .softDelete 1 4]).getD ⟨EdgeStore.new, nullEdge⟩

/-- An edge is linked in front, the deleted one is unlinked, and the last one is deleted. -/
def OutChain.laterSteps : List OutChainStep :=
  [.insert 1 5 0 0 5 nullEdge, .unlink 1 nullEdge, .softDelete 0 6]

def OutChain.afterLater : OutChain :=
  (run OutChain.step OutChain.threeEdges OutChain.laterSteps).getD OutChain.threeEdges

theorem traversal_stable_three :
    OutChain.threeEdges.visible 4 = some [2, 0] ∧ OutChain.afterLater.visible 4 = some [2, 0] := by
  have hchain : OutChain.threeEdges.Holds [2, 1, 0] :=
    ⟨rfl, _, rfl, rfl, _, rfl, rfl, _, rfl, rfl⟩
  have hlater : Guarded OutChain.step (OutChain.Later 4) OutChain.threeEdges
      OutChain.laterSteps :=
    Guarded.cons rfl (show (4 : UInt64) < 5 by decide)
      (Guarded.cons rfl ⟨_, rfl, rfl⟩
        (Guarded.cons rfl ⟨show (4 : UInt64) < 6 by decide, [3, 2, 0],
          ⟨rfl, _, rfl, rfl, _, rfl, rfl, _, rfl, rfl⟩, by decide⟩ trivial))
  have hguard : Guarded OutChain.step (OutChain.NoRevival 4) OutChain.threeEdges
      OutChain.laterSteps := by
    refine Guarded.cons rfl ⟨by decide, fun edges hedges => OutChain.notMem_of_absent hedges rfl⟩ ?_
    refine Guarded.cons rfl (show (1 : UInt64) ≠ nullEdge by decide) (Guarded.cons rfl ?_ trivial)
    intro e hget _
    obtain rfl := Option.some.inj (hget.symm.trans rfl)
    exact (by decide : (4 : UInt64) < maxTxId)
  have hbefore : OutChain.threeEdges.visible 4 = some [2, 0] := by decide
  have hsame := traversal_stable 4 OutChain.threeEdges OutChain.afterLater _ _ hchain hlater hguard
    rfl
  exact ⟨hbefore, hsame.trans hbefore⟩

/-- One edge, deleted by transaction 2. -/
def OutChain.deletedOnce : OutChain :=
  (run OutChain.step ⟨EdgeStore.new, nullEdge⟩
    [.insert 1 2 0 0 1 nullEdge, .softDelete 0 2]).getD ⟨EdgeStore.new, nullEdge⟩

/-- Transaction 5 deletes the edge once more, and a reader at 3 sees it. -/
theorem second_delete_shows_again :
    ¬ ∀ (snapshot : TxId) (s t : OutChain) (edges : List EdgeId) (steps : List OutChainStep),
      s.Holds edges → Guarded OutChain.step (OutChain.Later snapshot) s steps →
      run OutChain.step s steps = some t → t.visible snapshot = s.visible snapshot := by
  intro h
  have hchain : OutChain.deletedOnce.Holds [0] := ⟨rfl, _, rfl, rfl⟩
  have hlater : Guarded OutChain.step (OutChain.Later 3) OutChain.deletedOnce [.softDelete 0 5] :=
    Guarded.cons rfl ⟨show (3 : UInt64) < 5 by decide, [0], hchain, by decide⟩ trivial
  have hsame := h 3 OutChain.deletedOnce _ [0] [.softDelete 0 5] hchain hlater rfl
  exact absurd hsame (by decide)

end LightGraph
