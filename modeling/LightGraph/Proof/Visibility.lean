import LightGraph.Proof.CommitOrder
import LightGraph.Proof.ReservedIds

/-!
# What a reader sees of the commits

A reader with the snapshot `S` is meant to see the transactions up to `S` as a whole and none
of the others. What it does see of a record hangs on the two stamps the record carries, and
these are overwritten: an update puts its own id in place of the creator's, a second delete in
place of the first's. And the snapshot is taken from a counter that moves before the writes it
publishes are done.

`Trace` is what the stamps still say of the inserts, updates and deletes performed so far. It is
kept by every write that is on time (`OnTime`), and where the reader's record is settled
(`Settled`) it is enough for the reader to see what it should (`SeesWhole`). A reader that comes
between a turn and the writes behind it sees half of a transaction
(`reader_between_turn_and_write`).
-/

set_option autoImplicit false

namespace LightGraph

open Lib

/-! ## Records and their stamps -/

/-- A record of one of the two stores. -/
inductive RecordRef
  | node (id : NodeId)
  | edge (id : EdgeId)
  deriving DecidableEq

inductive Touch
  | insert
  | update
  | delete
  deriving DecidableEq

/-- Which record a write touches, and how. -/
def StoreWrite.touch : StoreWrite → Option (RecordRef × Touch)
  | .insertNode id _ _ => some (.node id, .insert)
  | .updateLabels id _ => some (.node id, .update)
  | .deleteNode id => some (.node id, .delete)
  | .insertEdge id _ _ _ _ => some (.edge id, .insert)
  | .deleteEdge id => some (.edge id, .delete)
  | .insertProp _ _ _ _ => none

@[ext] structure Stamps where
  created : TxId
  deleted : TxId
  deriving DecidableEq

def Maps.stamps (m : Maps) : RecordRef → Option Stamps
  | .node id => (m.nodes.get id).map fun n => ⟨n.createdTx, n.deletedTx⟩
  | .edge id => (m.edges.get id).map fun e => ⟨e.createdTx, e.deletedTx⟩

/-- What is done to the stamps. -/
def Touch.stamp (txId : TxId) : Touch → Option Stamps → Option Stamps
  | .insert, _ => some ⟨txId, maxTxId⟩
  | .update, st => st.map fun st => { st with created := txId }
  | .delete, st => st.map fun st => { st with deleted := txId }

/-- A write stamps the record it touches. -/
theorem Maps.stamps_write_self (m : Maps) (txId : TxId) {w : StoreWrite} {x : RecordRef}
    {k : Touch} (h : w.touch = some (x, k)) :
    (m.write txId w).stamps x = k.stamp txId (m.stamps x) := by
  cases w <;> simp only [StoreWrite.touch, Option.some.injEq, Prod.mk.injEq, reduceCtorEq] at h
  all_goals
    obtain ⟨rfl, rfl⟩ := h
    simp only [Maps.write, Maps.stamps, FiniteMap.get_alter, if_true, Touch.stamp,
      Option.map_map, Option.map_some]
    rfl

/-- It stamps no other. -/
theorem Maps.stamps_write_of_ne (m : Maps) (txId : TxId) {w : StoreWrite} {x : RecordRef}
    (h : ∀ k, w.touch ≠ some (x, k)) : (m.write txId w).stamps x = m.stamps x := by
  cases x with
  | node id =>
    have hne : ∀ {id' : NodeId} {k : Touch}, w.touch = some (.node id', k) → id ≠ id' := by
      rintro id' k hw rfl
      exact h k hw
    cases w with
    | insertNode id' _ _ =>
      simp only [Maps.write, Maps.stamps, FiniteMap.get_alter, if_neg (hne rfl)]
    | updateLabels id' _ =>
      simp only [Maps.write, Maps.stamps, FiniteMap.get_alter, if_neg (hne rfl)]
    | deleteNode id' =>
      simp only [Maps.write, Maps.stamps, FiniteMap.get_alter, if_neg (hne rfl)]
    | insertEdge id' _ _ _ _ => rfl
    | deleteEdge id' => rfl
    | insertProp _ _ _ _ => rfl
  | edge id =>
    have hne : ∀ {id' : EdgeId} {k : Touch}, w.touch = some (.edge id', k) → id ≠ id' := by
      rintro id' k hw rfl
      exact h k hw
    cases w with
    | insertEdge id' _ _ _ _ =>
      simp only [Maps.write, Maps.stamps, FiniteMap.get_alter, if_neg (hne rfl)]
    | deleteEdge id' =>
      simp only [Maps.write, Maps.stamps, FiniteMap.get_alter, if_neg (hne rfl)]
    | insertNode id' _ _ => rfl
    | updateLabels id' _ => rfl
    | deleteNode id' => rfl
    | insertProp _ _ _ _ => rfl

/-- `get_node` or `get_edge` returns something. -/
def Transaction.sees (tx : Transaction) (db : Database) : RecordRef → Bool
  | .node id => (tx.getNode db id).isSome
  | .edge id => (tx.getEdge db id).isSome

theorem Transaction.sees_iff (tx : Transaction) (db : Database) (x : RecordRef) :
    tx.sees db x = true ↔ ∃ st, db.maps.stamps x = some st ∧
      st.created ≤ tx.snapshot ∧ tx.snapshot < st.deleted := by
  have hfilter : ∀ {ρ : Type} (r? : Option ρ) (created deleted : ρ → TxId),
      (r?.filter fun r => aliveAt (created r) (deleted r) tx.snapshot).isSome = true ↔
        ∃ st : Stamps, (r?.map fun r => (⟨created r, deleted r⟩ : Stamps)) = some st ∧
          st.created ≤ tx.snapshot ∧ tx.snapshot < st.deleted := by
    intro ρ r? created deleted
    cases r? with
    | none => simp
    | some r =>
      rw [Option.filter_some]
      by_cases halive : aliveAt (created r) (deleted r) tx.snapshot = true
      · simpa [halive] using aliveAt_iff.mp halive
      · have hdead := mt aliveAt_iff.mpr halive
        simpa [halive] using hdead
  cases x with
  | node id => exact hfilter (db.nodes.records.get id) Node.createdTx Node.deletedTx
  | edge id => exact hfilter (db.edges.records.get id) Edge.createdTx Edge.deletedTx

/-! ## What is asked of a reader -/

/-- The transaction creates the record. -/
def Transaction.Creates (tx : Transaction) (x : RecordRef) : Prop :=
  ∃ w ∈ tx.writes, w.touch = some (x, .insert)

def Transaction.Deletes (tx : Transaction) (x : RecordRef) : Prop :=
  ∃ w ∈ tx.writes, w.touch = some (x, .delete)

namespace Clients

/-- A reader sees of a record what the transactions up to its snapshot make of it: what one of
them creates and none of them deletes is there, what one of them deletes is not, and neither
is what a later one creates. -/
structure SeesWhole (s : Clients) (reader : Transaction) (x : RecordRef) : Prop where
  created : ∀ c ∈ s.commits, c.txId ≤ reader.snapshot → c.tx.Creates x →
    (∀ d ∈ s.commits, d.txId ≤ reader.snapshot → ¬ d.tx.Deletes x) →
    reader.sees s.db x = true
  deleted : ∀ c ∈ s.commits, c.txId ≤ reader.snapshot → c.tx.Deletes x →
    reader.sees s.db x = false
  hidden : ∀ tx, (∃ c ∈ s.commits, c.tx = tx) ∨ tx ∈ s.writers →
    reader.snapshot < tx.txId → tx.Creates x → reader.sees s.db x = false

/-! ## When it gets it -/

/-- The transaction `txId` has performed this on the record. -/
def Done (s : Clients) (x : RecordRef) (k : Touch) (txId : TxId) : Prop :=
  ∃ c ∈ s.commits, c.txId = txId ∧ ∃ w ∈ c.performed, w.touch = some (x, k)

/-- The write comes neither after a delete of the record it inserts, nor after an insert by a
larger ticket of the record it updates. -/
def OnTime (s : Clients) : ClientStep → Prop
  | .write i => ∀ c w c' x, s.commits[i]? = some c → c.next = some (w, c') →
    (w.touch = some (x, .insert) → ∀ t, ¬ s.Done x .delete t) ∧
    (w.touch = some (x, .update) → ∀ t, s.Done x .insert t → t ≤ c.txId)
  | a => s.HasTicket a ∧ s.HasRoom a

/-- Nothing stands between a snapshot and a record: the transactions up to the snapshot have
done their inserts and deletes of it, and no later one has overwritten their stamps. -/
structure Settled (s : Clients) (snapshot : TxId) (x : RecordRef) : Prop where
  published : ∀ c ∈ s.commits, c.txId ≤ snapshot → ∀ w ∈ c.remaining,
    w.touch ≠ some (x, .insert) ∧ w.touch ≠ some (x, .delete)
  notRestamped : ∀ t u, t ≤ snapshot → snapshot < u → s.Done x .insert t → ¬ s.Done x .update u
  notRedeleted : ∀ t u, t ≤ snapshot → snapshot < u → s.Done x .delete t → ¬ s.Done x .delete u

end Clients

/-! ## What the stamps remember -/

/-- The stamps of a record, given who inserted, updated and deleted it. -/
structure Trace (inserted updated deleted : TxId → Prop) (st : Option Stamps) : Prop where
  absent : st = none → ∀ t, ¬ inserted t
  created : ∀ σ, st = some σ → ∀ t, inserted t → t ≤ σ.created ∧
    (σ.created = t ∨ updated σ.created)
  alive : ∀ σ, st = some σ → ∀ t, inserted t → σ.deleted = maxTxId ∨ deleted σ.deleted
  dead : ∀ σ, st = some σ → ∀ t, deleted t → deleted σ.deleted

namespace Trace
variable {ins upd del : TxId → Prop} {st : Option Stamps} {t : TxId}

/-- An insert of an absent record that nobody has deleted. -/
theorem insert (h : Trace ins upd del st) (hnone : st = none) (hdel : ∀ u, ¬ del u) :
    Trace (fun u => ins u ∨ u = t) upd del (Touch.insert.stamp t st) := by
  have hins := h.absent hnone
  refine ⟨fun hst => absurd hst (by simp [Touch.stamp]), ?_, ?_, fun _ _ u hu => absurd hu (hdel u)⟩
  · rintro σ hσ u (hu | rfl)
    · exact absurd hu (hins u)
    · obtain rfl := Option.some.inj hσ
      exact ⟨UInt64.le_refl _, Or.inl rfl⟩
  · rintro σ hσ u -
    obtain rfl := Option.some.inj hσ
    exact Or.inl rfl

/-- Nothing is said of updates and deletes of a record that is not there. -/
theorem none_of_absent {upd' del' : TxId → Prop} (h : ∀ u, ¬ ins u) :
    Trace ins upd' del' none := by
  refine ⟨fun _ => h, ?_, ?_, ?_⟩
  all_goals
    intro σ hσ
    exact absurd hσ (by simp)

/-- An update by nobody smaller than the creator. -/
theorem update (h : Trace ins upd del st) (hle : ∀ u, ins u → u ≤ t) :
    Trace ins (fun u => upd u ∨ u = t) del (Touch.update.stamp t st) := by
  cases hst : st with
  | none => exact none_of_absent (h.absent hst)
  | some σ₀ =>
    refine ⟨fun hnone => absurd hnone (by simp [Touch.stamp]), ?_, ?_, ?_⟩
    all_goals
      intro σ hσ u hu
      obtain rfl := Option.some.inj hσ
    · exact ⟨hle u hu, Or.inr (Or.inr rfl)⟩
    · exact h.alive σ₀ hst u hu
    · exact h.dead σ₀ hst u hu

/-- A delete, of a record or of none. -/
theorem delete (h : Trace ins upd del st) :
    Trace ins upd (fun u => del u ∨ u = t) (Touch.delete.stamp t st) := by
  cases hst : st with
  | none => exact none_of_absent (h.absent hst)
  | some σ₀ =>
    refine ⟨fun hnone => absurd hnone (by simp [Touch.stamp]), ?_, ?_, ?_⟩
    all_goals
      intro σ hσ u hu
      obtain rfl := Option.some.inj hσ
    · exact h.created σ₀ hst u hu
    · exact Or.inr (Or.inr rfl)
    · exact Or.inr rfl

theorem congr {ins' upd' del' : TxId → Prop} (h : Trace ins upd del st)
    (hi : ∀ t, ins' t ↔ ins t) (hu : ∀ t, upd' t ↔ upd t) (hd : ∀ t, del' t ↔ del t) :
    Trace ins' upd' del' st := by
  obtain rfl : ins' = ins := funext fun t => propext (hi t)
  obtain rfl : upd' = upd := funext fun t => propext (hu t)
  obtain rfl : del' = del := funext fun t => propext (hd t)
  exact h

end Trace

namespace Clients

/-! ## What a step adds -/

variable {s : Clients}

theorem done_turn {tx : Transaction} {x : RecordRef} {k : Touch} {t : TxId} (db : Database)
    (writers : List Transaction) :
    ({ s with db, writers, commits := s.commits ++ [Commit.start tx] } : Clients).Done x k t ↔
      s.Done x k t := by
  constructor
  · rintro ⟨c, hc, ht, w, hw, hk⟩
    rcases List.mem_append.mp hc with hc | hc
    · exact ⟨c, hc, ht, w, hw, hk⟩
    · rw [List.mem_singleton.mp hc] at hw
      exact absurd hw List.not_mem_nil
  · rintro ⟨c, hc, hrest⟩
    exact ⟨c, List.mem_append_left _ hc, hrest⟩

theorem done_write {i : Nat} {c c' : Commit} {w : StoreWrite} {x : RecordRef} {k : Touch}
    {t : TxId} (hi : s.commits[i]? = some c) (hnext : c.next = some (w, c')) (db : Database) :
    ({ s with db, commits := s.commits.set i c' } : Clients).Done x k t ↔
      s.Done x k t ∨ w.touch = some (x, k) ∧ t = c.txId := by
  obtain ⟨htx, hperf, -⟩ := Commit.next_spec hnext
  have hid : c'.txId = c.txId := by rw [Commit.txId, htx]
  obtain ⟨hlt, hget⟩ := List.getElem?_eq_some_iff.mp hi
  have hnew : c' ∈ s.commits.set i c' := List.mem_set hlt c'
  constructor
  · rintro ⟨d, hd, rfl, w', hw', hk⟩
    rcases List.mem_or_eq_of_mem_set hd with hd | rfl
    · exact Or.inl ⟨d, hd, rfl, w', hw', hk⟩
    · rw [hperf] at hw'
      rcases List.mem_append.mp hw' with hw' | hw'
      · exact Or.inl ⟨c, List.mem_of_getElem? hi, hid.symm, w', hw', hk⟩
      · rw [List.mem_singleton.mp hw'] at hk
        exact Or.inr ⟨hk, hid⟩
  · rintro (⟨d, hd, rfl, w', hw', hk⟩ | ⟨hk, rfl⟩)
    · obtain ⟨j, hj⟩ := List.mem_iff_getElem?.mp hd
      by_cases hij : i = j
      · -- the commit that writes keeps what it has done
        subst hij
        obtain rfl : c = d := Option.some.inj (hi.symm.trans hj)
        exact ⟨c', hnew, hid, w', by rw [hperf]; exact List.mem_append_left _ hw', hk⟩
      · have hd' : d ∈ s.commits.set i c' :=
          List.mem_of_getElem? (by rw [List.getElem?_set_ne hij]; exact hj)
        exact ⟨d, hd', rfl, w', hw', hk⟩
    · exact ⟨c', hnew, hid, w, by rw [hperf]; simp, hk⟩

/-- A record whose insert is to come is not there. -/
theorem Reserved.stamps_none (h : s.Reserved) {w : StoreWrite} {x : RecordRef}
    (hw : w.touch = some (x, .insert))
    (hmem : (∃ tx ∈ s.writers, w ∈ tx.writes) ∨ ∃ c ∈ s.commits, w ∈ c.remaining) :
    s.db.maps.stamps x = none := by
  have hres : ∀ (new? : StoreWrite → Option UInt64) {id : UInt64}, new? w = some id →
      id ∈ s.reserved new? := by
    intro new? id hid
    rcases hmem with ⟨tx, htx, hw⟩ | ⟨c, hc, hw⟩
    · exact List.mem_append_left _
        (List.mem_flatMap.mpr ⟨tx, htx, List.mem_filterMap.mpr ⟨w, hw, hid⟩⟩)
    · exact List.mem_append_right _
        (List.mem_flatMap.mpr ⟨c, hc, List.mem_filterMap.mpr ⟨w, hw, hid⟩⟩)
  cases w with
  | insertNode id labels propsRow =>
    obtain ⟨rfl, -⟩ := Prod.mk.inj (Option.some.inj hw)
    have habsent := h.nodes.absent (hres StoreWrite.newNode? rfl)
    show (s.db.nodes.records.get id).map _ = none
    rw [habsent, Option.map_none]
  | insertEdge id src dst etype propsRow =>
    obtain ⟨rfl, -⟩ := Prod.mk.inj (Option.some.inj hw)
    have habsent := h.edges.absent (hres StoreWrite.newEdge? rfl)
    show (s.db.edges.records.get id).map _ = none
    rw [habsent, Option.map_none]
  | updateLabels id labels => exact absurd hw (by simp [StoreWrite.touch])
  | deleteNode id => exact absurd hw (by simp [StoreWrite.touch])
  | deleteEdge id => exact absurd hw (by simp [StoreWrite.touch])
  | insertProp label prop row value => exact absurd hw (by simp [StoreWrite.touch])

/-! ## The invariant -/

/-- What every schedule whose writes are on time keeps. -/
structure Traced (s : Clients) : Prop where
  tickets : s.Tickets
  reserved : s.Reserved
  traces : ∀ x, Trace (s.Done x .insert) (s.Done x .update) (s.Done x .delete)
    (s.db.maps.stamps x)

theorem OnTime.both {a : ClientStep} (h : s.OnTime a) : s.HasTicket a ∧ s.HasRoom a := by
  cases a with
  | write i => exact ⟨trivial, trivial⟩
  | beginRead => exact h
  | beginWrite => exact h
  | call i c => exact h
  | turn i => exact h
  | rollback i => exact h

theorem Traced.start {db : Database} (h : db.txManager.committedTxId < db.txManager.nextTxId)
    (hn : db.nodes.Sound) (he : RecordStore.Sound db.edges) : (Clients.start db).Traced := by
  have hnone : ∀ {x k t}, ¬ (Clients.start db).Done x k t := by
    rintro x k t ⟨c, hc, -⟩
    exact absurd hc List.not_mem_nil
  exact ⟨(Ordered.start h).tickets, Reserved.start hn he, fun x =>
    ⟨fun _ _ => hnone, fun _ _ _ hd => absurd hd hnone, fun _ _ _ hd => absurd hd hnone,
      fun _ _ _ hd => absurd hd hnone⟩⟩

section Persistent
variable [Bincode Node] [Bincode Edge] [Bincode (Option Value)]

theorem Traced.write {i : Nat} {c c' : Commit} {w : StoreWrite} (h : s.Traced)
    (hg : s.OnTime (.write i)) (hi : s.commits[i]? = some c) (hnext : c.next = some (w, c'))
    (x : RecordRef) :
    Trace
      (({ s with db := s.db.perform c.txId w, commits := s.commits.set i c' } : Clients).Done
        x .insert)
      (({ s with db := s.db.perform c.txId w, commits := s.commits.set i c' } : Clients).Done
        x .update)
      (({ s with db := s.db.perform c.txId w, commits := s.commits.set i c' } : Clients).Done
        x .delete)
      ((s.db.perform c.txId w).maps.stamps x) := by
  have hdone : ∀ k t,
      ({ s with db := s.db.perform c.txId w, commits := s.commits.set i c' } : Clients).Done x k t
        ↔ s.Done x k t ∨ w.touch = some (x, k) ∧ t = c.txId :=
    fun k t => done_write hi hnext _
  obtain ⟨hinsert, hupdate⟩ := hg c w c' x hi hnext
  rw [Database.perform_maps]
  by_cases hx : ∃ k, w.touch = some (x, k)
  · obtain ⟨k, hk⟩ := hx
    rw [Maps.stamps_write_self _ _ hk]
    cases k with
    | insert =>
      -- the id is reserved for this very write, so nobody has put a record there
      have hrem : w ∈ c.remaining := by
        rw [(Commit.next_spec hnext).2.2]
        exact List.mem_cons_self
      have hnone := h.reserved.stamps_none hk (Or.inr ⟨c, List.mem_of_getElem? hi, hrem⟩)
      refine ((h.traces x).insert (t := c.txId) hnone (hinsert hk)).congr ?_ ?_ ?_ <;>
      intro t <;> rw [hdone, hk] <;> simp
    | update =>
      refine ((h.traces x).update (t := c.txId) (hupdate hk)).congr ?_ ?_ ?_ <;>
      intro t <;> rw [hdone, hk] <;> simp
    | delete =>
      refine ((h.traces x).delete (t := c.txId)).congr ?_ ?_ ?_ <;>
      intro t <;> rw [hdone, hk] <;> simp
  · rw [not_exists] at hx
    rw [Maps.stamps_write_of_ne _ _ hx]
    refine (h.traces x).congr ?_ ?_ ?_ <;>
    intro t <;> rw [hdone] <;> simp [hx]

theorem Traced.step {s' : Clients} {a : ClientStep} (h : s.Traced) (hg : s.OnTime a)
    (hs : s.step a = some s') : s'.Traced := by
  refine ⟨h.tickets.step hg.both.1 hs, h.reserved.step hg.both.2 hs, fun x => ?_⟩
  cases a with
  | beginRead =>
    simp only [Clients.step, Option.some.injEq] at hs
    subst hs
    exact h.traces x
  | beginWrite =>
    simp only [Clients.step, Option.some.injEq] at hs
    subst hs
    exact h.traces x
  | call i c =>
    obtain ⟨tx, -, rfl⟩ := step_call_inv hs
    rw [(Database.apply_same (tx, s.db) c).1.maps]
    exact h.traces x
  | turn i =>
    obtain ⟨tx, m, -, -, rfl⟩ := step_turn_inv hs
    exact (h.traces x).congr (fun _ => done_turn _ _) (fun _ => done_turn _ _)
      fun _ => done_turn _ _
  | write i =>
    obtain ⟨c, w, c', hi, hnext, rfl⟩ := step_write_inv hs
    exact h.write hg hi hnext x
  | rollback i =>
    obtain ⟨tx, m, -, -, rfl⟩ := step_rollback_inv hs
    exact h.traces x

end Persistent

/-! ## The reader -/

/-- Whatever is not pending is done. -/
theorem done_of_settled {snapshot : TxId} {x : RecordRef} (hset : s.Settled snapshot x)
    {c : Commit} (hc : c ∈ s.commits) (hle : c.txId ≤ snapshot) {w : StoreWrite} {k : Touch}
    (hw : w ∈ c.tx.writes) (hk : w.touch = some (x, k)) (hne : k ≠ .update) :
    s.Done x k c.txId := by
  rw [← c.whole] at hw
  rcases List.mem_append.mp hw with hw | hw
  · exact ⟨c, hc, rfl, w, hw, hk⟩
  · obtain ⟨hins, hdel⟩ := hset.published c hc hle w hw
    cases k with
    | insert => exact absurd hk hins
    | update => exact absurd rfl hne
    | delete => exact absurd hk hdel

theorem not_sees {reader : Transaction} {db : Database} {x : RecordRef}
    (h : ∀ σ, db.maps.stamps x = some σ →
      reader.snapshot < σ.created ∨ σ.deleted ≤ reader.snapshot) :
    reader.sees db x = false := by
  rw [← Bool.not_eq_true, Transaction.sees_iff]
  rintro ⟨σ, hσ, hcreated, hdeleted⟩
  rcases h σ hσ with hlt | hle
  · exact UInt64.lt_irrefl _ (UInt64.lt_of_le_of_lt hcreated hlt)
  · exact UInt64.lt_irrefl _ (UInt64.lt_of_le_of_lt hle hdeleted)

theorem Traced.seesWhole (h : s.Traced) {reader : Transaction} (hr : reader ∈ s.readers)
    {x : RecordRef} (hset : s.Settled reader.snapshot x) : s.SeesWhole reader x := by
  have htrace := h.traces x
  -- the snapshot is a value of the counter, and the dispenser is ahead of the counter
  have hmax : reader.snapshot < maxTxId := by
    have hle := h.tickets.snapshots reader hr
    have hlt := UInt64.lt_of_le_of_lt hle h.tickets.fresh
    refine UInt64.lt_of_lt_of_le hlt ?_
    have hnext := s.db.txManager.nextTxId.toNat_lt
    rw [UInt64.le_iff_toNat_le]
    show _ ≤ 18446744073709551615
    omega
  refine ⟨?_, ?_, ?_⟩
  · -- created, and nobody's delete counts
    rintro c hc hle ⟨w, hw, hk⟩ hnodel
    have hins := done_of_settled hset hc hle hw hk (by decide)
    rw [Transaction.sees_iff]
    cases hst : s.db.maps.stamps x with
    | none => exact absurd hins (htrace.absent hst c.txId)
    | some σ =>
      refine ⟨σ, rfl, ?_, ?_⟩
      · rcases (htrace.created σ hst c.txId hins).2 with heq | hupd
        · exact heq ▸ hle
        · refine UInt64.not_lt.mp fun hlt => ?_
          exact hset.notRestamped c.txId σ.created hle hlt hins hupd
      · rcases htrace.alive σ hst c.txId hins with heq | ⟨d, hd, hdt, w', hw', hk'⟩
        · exact heq ▸ hmax
        · refine UInt64.not_le.mp fun hle' => ?_
          refine hnodel d hd (hdt ▸ hle') ⟨w', ?_, hk'⟩
          rw [← d.whole]
          exact List.mem_append_left _ hw'
  · -- deleted, and by nobody later
    rintro c hc hle ⟨w, hw, hk⟩
    have hdel := done_of_settled hset hc hle hw hk (by decide)
    refine not_sees fun σ hσ => Or.inr (UInt64.not_lt.mp fun hlt => ?_)
    exact hset.notRedeleted c.txId σ.deleted hle hlt hdel (htrace.dead σ hσ c.txId hdel)
  · -- not there yet, or with a stamp that is too large
    rintro tx hof hlt ⟨w, hw, hk⟩
    have habsent : ((∃ tx ∈ s.writers, w ∈ tx.writes) ∨ ∃ c ∈ s.commits, w ∈ c.remaining) →
        reader.sees s.db x = false := by
      intro hpending
      refine not_sees fun σ hσ => ?_
      rw [h.reserved.stamps_none hk hpending] at hσ
      exact absurd hσ (by simp)
    rcases hof with ⟨c, hc, rfl⟩ | htx
    · rw [← c.whole] at hw
      rcases List.mem_append.mp hw with hw | hw
      · refine not_sees fun σ hσ => Or.inl (UInt64.lt_of_lt_of_le hlt ?_)
        exact (htrace.created σ hσ c.txId ⟨c, hc, rfl, w, hw, hk⟩).1
      · exact habsent (Or.inr ⟨c, hc, hw⟩)
    · exact habsent (Or.inl ⟨tx, htx, hw⟩)

end Clients

/-- **Readers see whole transactions of settled records.** Any schedule of any number of
clients whose writes are on time, on any database with sound stores: whatever reader there is,
of every record that is settled for it the reader sees what the transactions up to its snapshot
make of it. -/
theorem readers_see_whole [Bincode Node] [Bincode Edge] [Bincode (Option Value)] {db : Database}
    (hfresh : db.txManager.committedTxId < db.txManager.nextTxId) (hnodes : db.nodes.Sound)
    (hedges : RecordStore.Sound db.edges) {steps : List ClientStep} {s : Clients}
    (hg : Guarded Clients.step Clients.OnTime (Clients.start db) steps)
    (h : run Clients.step (Clients.start db) steps = some s) :
    ∀ reader ∈ s.readers, ∀ x, s.Settled reader.snapshot x → s.SeesWhole reader x := by
  have hinv := guarded_invariant (I := Clients.Traced)
    (fun s a s' hI hgood hs => hI.step hgood hs) (Clients.Traced.start hfresh hnodes hedges) hg h
  exact fun reader hr x hset => hinv.seesWhole hr hset

/-! ## A reader that comes too early, and one that does not -/

/-- A transaction creates a node and has its turn; a reader begins before the node is
written. -/
def readTooEarly : List ClientStep :=
  [.beginWrite, .call 0 (.createNode [1] 0), .turn 0, .beginRead]

theorem reader_between_turn_and_write :
    ¬ ∀ (db : Database) (steps : List ClientStep) (s : Clients),
      db.txManager.committedTxId < db.txManager.nextTxId → db.nodes.Sound →
      RecordStore.Sound db.edges → run Clients.step (Clients.start db) steps = some s →
      ∀ reader ∈ s.readers, ∀ x, s.SeesWhole reader x := by
  intro h
  obtain ⟨s, hrun⟩ : ∃ s, run Clients.step (Clients.start Database.memory) readTooEarly = some s :=
    ⟨_, rfl⟩
  have hs := Option.some.inj hrun
  have hsees := h Database.memory readTooEarly s (by decide) RecordStore.new_sound
    RecordStore.new_sound hrun (Transaction.new 0 1 false) (by rw [← hs]; exact List.mem_cons_self)
    (.node 0)
  rw [← hs] at hsees
  have hthere := hsees.created _ List.mem_cons_self (UInt64.le_refl 1)
    ⟨.insertNode 0 [1] 0, List.mem_cons_self, rfl⟩ (by
      rintro d hd - ⟨w, hw, hk⟩
      obtain rfl := List.mem_singleton.mp hd
      obtain rfl : w = .insertNode 0 [1] 0 := List.mem_singleton.mp hw
      exact absurd hk (by decide))
  exact absurd hthere (by decide)

/-- The write is done before the reader begins; another transaction is between its turn and its
write. -/
def readInTime : List ClientStep :=
  [.beginWrite, .call 0 (.createNode [1] 0), .turn 0, .write 0, .beginRead, .beginWrite,
    .call 0 (.createNode [2] 0), .turn 0]

/-- Nobody has touched anything in this way. -/
theorem Clients.not_done {s : Clients} {k : Touch}
    (h : ∀ c ∈ s.commits, ∀ w ∈ c.performed, w.touch.map (·.2) ≠ some k) (x : RecordRef)
    (t : TxId) : ¬ s.Done x k t := by
  rintro ⟨c, hc, -, w, hw, hk⟩
  exact h c hc w hw (by rw [hk]; rfl)

theorem readers_see_whole_in_time :
    ∃ s reader, run Clients.step (Clients.start Database.memory) readInTime = some s ∧
      reader ∈ s.readers ∧ ∀ x, s.SeesWhole reader x := by
  have hguard : Guarded Clients.step Clients.OnTime (Clients.start Database.memory)
      readInTime := by
    refine Guarded.cons rfl ⟨(by decide : (1 : TxId) < maxTxId), trivial⟩ ?_
    refine Guarded.cons rfl ⟨trivial, (by decide : (0 : NodeId) < maxTxId)⟩ ?_
    refine Guarded.cons rfl ⟨trivial, trivial⟩ (Guarded.cons rfl ?_ ?_)
    · exact fun c w c' x _ _ => ⟨fun _ => Clients.not_done (by decide) x,
        fun _ t hd => absurd hd (Clients.not_done (by decide) x t)⟩
    refine Guarded.cons rfl ⟨trivial, trivial⟩ ?_
    refine Guarded.cons rfl ⟨(by decide : (2 : TxId) < maxTxId), trivial⟩ ?_
    refine Guarded.cons rfl ⟨trivial, (by decide : (1 : NodeId) < maxTxId)⟩ ?_
    exact Guarded.cons rfl ⟨trivial, trivial⟩ trivial
  have hrun : run Clients.step (Clients.start Database.memory) readInTime = some _ := rfl
  refine ⟨_, Transaction.new 0 1 false, hrun, List.mem_cons_self, fun x => ?_⟩
  apply readers_see_whole (by decide) RecordStore.new_sound RecordStore.new_sound hguard hrun _
    List.mem_cons_self
  refine ⟨?_, fun t u _ _ _ => Clients.not_done (by decide) x u,
    fun t u _ _ _ => Clients.not_done (by decide) x u⟩
  have hwritten : ∀ c ∈ ((run Clients.step (Clients.start Database.memory) readInTime).get
      rfl).commits, c.txId ≤ 1 → c.remaining.isEmpty = true := by decide
  intro c hc hle w hw
  rw [List.isEmpty_iff.mp (hwritten c hc hle)] at hw
  exact absurd hw List.not_mem_nil

end LightGraph
