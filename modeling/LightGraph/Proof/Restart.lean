import LightGraph.Storage.Bincode
import LightGraph.Proof.DatabaseLogs

/-!
# What a restart shows its readers

The stores come back from their logs record for record, stamps included; the transaction
manager comes back new. A reader that begins after a restart has the snapshot 0, so it sees
nothing a transaction ever created, and the first ticket handed out is 1, a stamp that may be
in use. What a restart preserves is therefore decided by the stamps alone: every answer, of a
database none of whose records was stamped by a transaction (`restart_preserves_iff`).
-/

set_option autoImplicit false

namespace LightGraph

open Lib

namespace Database

/-- `get_node` in a transaction that `begin_read` begins now. -/
def readNode (db : Database) (id : NodeId) : Option Node := db.beginRead.getNode db id

def readEdge (db : Database) (id : EdgeId) : Option Edge := db.beginRead.getEdge db id

/-- The ticket of the `begin_write` that follows `k` others. -/
def ticket (db : Database) : Nat → TxId
  | 0 => db.beginWrite.1.txId
  | k + 1 => db.beginWrite.2.ticket k

/-- Every `created_tx` and every `deleted_tx` that says deleted is below `txId`. -/
structure StampsBelow (db : Database) (txId : TxId) : Prop where
  nodes : ∀ id n, db.nodes.get id = some n →
    n.createdTx < txId ∧ (n.deletedTx ≠ maxTxId → n.deletedTx < txId)
  edges : ∀ id e, db.edges.get id = some e →
    e.createdTx < txId ∧ (e.deletedTx ≠ maxTxId → e.deletedTx < txId)

section Persistent
variable [Bincode Node] [Bincode Edge] [Bincode (Option Value)]

/-- A database that is closed and opened again shows a reader what it showed before, and
the next `tickets` calls of `begin_write` return ids above all stamps recovered. -/
def RestartPreserves (db : Database) (tickets : Nat) : Prop :=
  ∃ reopened, Database.open db.dir = .ok reopened ∧
    (∀ id, reopened.readNode id = db.readNode id) ∧
    (∀ id, reopened.readEdge id = db.readEdge id) ∧
    ∀ k < tickets, reopened.StampsBelow (reopened.ticket k)

end Persistent

end Database

/-- The stamps of a record no transaction has written. A deletion by the transaction 0 is one
such stamp; a record that was never deleted is another, as long as the last snapshot of all has
not been reached, at which nothing is alive. -/
def Unstamped (committed created deleted : TxId) : Prop :=
  created = 0 ∧ (deleted = 0 ∨ deleted = maxTxId ∧ committed ≠ maxTxId)

/-- No transaction has stamped a node or an edge. -/
structure Database.NeverStamped (db : Database) : Prop where
  nodes : ∀ id n, db.nodes.get id = some n →
    Unstamped db.txManager.committedTxId n.createdTx n.deletedTx
  edges : ∀ id e, db.edges.get id = some e →
    Unstamped db.txManager.committedTxId e.createdTx e.deletedTx

/-! ## One record -/

theorem lt_one_iff {t : TxId} : t < 1 ↔ t = 0 := by
  rw [UInt64.lt_iff_toNat_lt, ← UInt64.toNat_inj]
  show t.toNat < 1 ↔ t.toNat = 0
  omega

theorem lt_maxTxId_iff {t : TxId} : t < maxTxId ↔ t ≠ maxTxId := by
  have hle := t.toNat_lt
  rw [UInt64.lt_iff_toNat_lt, Ne, ← UInt64.toNat_inj]
  show t.toNat < 18446744073709551615 ↔ ¬ t.toNat = 18446744073709551615
  omega

/-- A record is seen alike at the snapshot 0 and at another, and its stamps are below the
first ticket, exactly when it has none. -/
theorem unstamped_iff {committed created deleted : TxId} :
    Unstamped committed created deleted ↔
      aliveAt created deleted 0 = aliveAt created deleted committed ∧
      created < 1 ∧ (deleted ≠ maxTxId → deleted < 1) := by
  rw [Unstamped, lt_one_iff, lt_one_iff]
  constructor
  · rintro ⟨rfl, hdel⟩
    refine ⟨?_, rfl, ?_⟩
    · rw [Bool.eq_iff_iff, aliveAt_iff, aliveAt_iff]
      rcases hdel with rfl | ⟨rfl, hne⟩
      · simp [UInt64.lt_iff_toNat_lt]
      · have hlt := lt_maxTxId_iff.mpr hne
        simp only [hlt, UInt64.zero_le, and_true, true_and]
        decide
    · rcases hdel with h | h
      · exact fun _ => h
      · exact fun hne => absurd h.1 hne
  · rintro ⟨halive, rfl, hdel⟩
    refine ⟨rfl, ?_⟩
    by_cases hmax : deleted = maxTxId
    · subst hmax
      -- at the last snapshot of all an undeleted record is dead, at the snapshot 0 it is alive
      refine Or.inr ⟨rfl, ?_⟩
      rintro rfl
      exact absurd halive (by decide)
    · exact Or.inl (hdel hmax)

/-- The same for a whole map. -/
theorem reads_stamps_iff {ρ : Type} (m : FiniteMap UInt64 ρ) (created deleted : ρ → TxId)
    (committed : TxId) :
    (∀ id r, m.get id = some r → Unstamped committed (created r) (deleted r)) ↔
      (∀ id, ((m.get id).filter fun r => aliveAt (created r) (deleted r) 0)
        = (m.get id).filter fun r => aliveAt (created r) (deleted r) committed) ∧
      ∀ id r, m.get id = some r → created r < 1 ∧ (deleted r ≠ maxTxId → deleted r < 1) := by
  simp only [unstamped_iff]
  constructor
  · intro h
    refine ⟨fun id => ?_, fun id r hr => (h id r hr).2⟩
    cases hr : m.get id with
    | none => rfl
    | some r => simp only [Option.filter_some, (h id r hr).1]
  · rintro ⟨hread, hstamp⟩ id r hr
    refine ⟨?_, hstamp id r hr⟩
    have hid := hread id
    rw [hr, Option.filter_some, Option.filter_some] at hid
    cases h0 : aliveAt (created r) (deleted r) 0 <;>
    cases hc : aliveAt (created r) (deleted r) committed <;>
    simp [h0, hc] at hid ⊢

/-! ## The tickets after a restart -/

namespace Database

theorem ticket_eq (k : Nat) : ∀ db : Database,
    db.ticket k = db.txManager.nextTxId + UInt64.ofNat k := by
  induction k with
  | zero =>
    intro db
    show db.txManager.nextTxId = db.txManager.nextTxId + 0
    rw [UInt64.add_zero]
  | succ k ih =>
    intro db
    rw [ticket, ih]
    show db.txManager.nextTxId + 1 + UInt64.ofNat k = _
    rw [UInt64.add_assoc, UInt64.ofNat_add, UInt64.add_comm 1]
    rfl

theorem StampsBelow.mono {db : Database} {t t' : TxId} (h : db.StampsBelow t) (hle : t ≤ t') :
    db.StampsBelow t' :=
  ⟨fun id n hn => ⟨UInt64.lt_of_lt_of_le (h.nodes id n hn).1 hle,
      fun hd => UInt64.lt_of_lt_of_le ((h.nodes id n hn).2 hd) hle⟩,
    fun id e he => ⟨UInt64.lt_of_lt_of_le (h.edges id e he).1 hle,
      fun hd => UInt64.lt_of_lt_of_le ((h.edges id e he).2 hd) hle⟩⟩

/-- Until the dispenser runs over, the first ticket is the least. -/
theorem stampsBelow_tickets_iff {db : Database} (hnew : db.txManager = TxManager.new)
    {tickets : Nat} (hpos : 0 < tickets) (hlt : tickets < 2 ^ 64) :
    (∀ k < tickets, db.StampsBelow (db.ticket k)) ↔ db.StampsBelow 1 := by
  have hticket : ∀ k, db.ticket k = 1 + UInt64.ofNat k := by
    intro k
    rw [ticket_eq, hnew]
    rfl
  constructor
  · intro h
    have hfirst := h 0 hpos
    rw [hticket] at hfirst
    exact hfirst
  · intro h k hk
    -- up to here the dispenser has not wrapped, so no ticket is below the first
    apply h.mono
    rw [hticket, UInt64.le_iff_toNat_le, UInt64.toNat_add, UInt64.toNat_ofNat']
    have hone : (1 : UInt64).toNat = 1 := rfl
    rw [hone]
    omega

/-- The dispenser does run over, and then hands out the ticket 0. -/
theorem ticket_wraps {db : Database} (hnew : db.txManager = TxManager.new) :
    db.ticket (2 ^ 64 - 1) = 0 := by
  rw [ticket_eq, hnew]
  decide

/-- Nothing is below the ticket 0. -/
theorem stampsBelow_zero_iff {db : Database} :
    db.StampsBelow 0 ↔ db.nodes.records = ∅ ∧ db.edges.records = ∅ := by
  have hzero : ∀ t : TxId, ¬ t < 0 := fun t => by simp [UInt64.lt_iff_toNat_lt]
  rw [FiniteMap.eq_empty_iff, FiniteMap.eq_empty_iff]
  constructor
  · intro h
    refine ⟨fun id => ?_, fun id => ?_⟩
    · cases hn : db.nodes.records.get id with
      | none => rfl
      | some n => exact absurd (h.nodes id n hn).1 (hzero _)
    · cases he : db.edges.records.get id with
      | none => rfl
      | some e => exact absurd (h.edges id e he).1 (hzero _)
  · rintro ⟨hnodes, hedges⟩
    exact ⟨fun id n hn => absurd ((hnodes id).symm.trans hn) (by simp),
      fun id e he => absurd ((hedges id).symm.trans he) (by simp)⟩

/-! ## A restart -/

section Persistent
variable [Bincode Node] [Bincode Edge] [Bincode (Option Value)]
variable {logs : DirLogs} {db : Database}

theorem Logged.restartPreserves_iff (h : db.Logged logs) (hfit : AllFit logs db) {tickets : Nat}
    (hpos : 0 < tickets) (hlt : tickets < 2 ^ 64) :
    db.RestartPreserves tickets ↔ db.NeverStamped := by
  obtain ⟨reopened, hopen, hnew, hnodes, hedges, -⟩ := h.reopen hfit
  have hsnap : reopened.beginRead.snapshot = 0 := by
    show reopened.txManager.committedTxId = 0
    rw [hnew]
    rfl
  have hnode := reads_stamps_iff db.nodes.records Node.createdTx Node.deletedTx
    db.txManager.committedTxId
  have hedge := reads_stamps_iff db.edges.records Edge.createdTx Edge.deletedTx
    db.txManager.committedTxId
  have hreadN : ∀ id, reopened.readNode id
      = (db.nodes.records.get id).filter fun n => aliveAt n.createdTx n.deletedTx 0 := by
    intro id
    show (reopened.nodes.records.get id).filter _ = _
    rw [hnodes, hsnap]
    rfl
  have hreadE : ∀ id, reopened.readEdge id
      = (db.edges.records.get id).filter fun e => aliveAt e.createdTx e.deletedTx 0 := by
    intro id
    show (reopened.edges.records.get id).filter _ = _
    rw [hedges, hsnap]
    rfl
  have hbelow : reopened.StampsBelow 1 ↔
      (∀ id n, db.nodes.records.get id = some n →
        n.createdTx < 1 ∧ (n.deletedTx ≠ maxTxId → n.deletedTx < 1)) ∧
      ∀ id e, db.edges.records.get id = some e →
        e.createdTx < 1 ∧ (e.deletedTx ≠ maxTxId → e.deletedTx < 1) := by
    rw [← hnodes, ← hedges]
    exact ⟨fun h => ⟨h.nodes, h.edges⟩, fun h => ⟨h.1, h.2⟩⟩
  constructor
  · rintro ⟨reopened', hopen', hrn, hre, htickets⟩
    rw [hopen, Except.ok.injEq] at hopen'
    subst hopen'
    obtain ⟨hbn, hbe⟩ :=
      hbelow.mp ((stampsBelow_tickets_iff hnew hpos hlt).mp htickets)
    exact ⟨hnode.mpr ⟨fun id => (hreadN id).symm.trans (hrn id), hbn⟩,
      hedge.mpr ⟨fun id => (hreadE id).symm.trans (hre id), hbe⟩⟩
  · rintro ⟨hn, he⟩
    obtain ⟨hrn, hbn⟩ := hnode.mp hn
    obtain ⟨hre, hbe⟩ := hedge.mp he
    exact ⟨reopened, hopen, fun id => (hreadN id).trans (hrn id),
      fun id => (hreadE id).trans (hre id),
      (stampsBelow_tickets_iff hnew hpos hlt).mpr (hbelow.mpr ⟨hbn, hbe⟩)⟩

theorem Logged.restartPreserves_all_iff (h : db.Logged logs) (hfit : AllFit logs db) :
    (∀ tickets, db.RestartPreserves tickets) ↔
      db.nodes.records = ∅ ∧ db.edges.records = ∅ := by
  obtain ⟨reopened, hopen, hnew, hnodes, hedges, -⟩ := h.reopen hfit
  constructor
  · intro hall
    obtain ⟨reopened', hopen', -, -, htickets⟩ := hall (2 ^ 64)
    rw [hopen, Except.ok.injEq] at hopen'
    subst hopen'
    have hzero := htickets (2 ^ 64 - 1) (by decide)
    rw [ticket_wraps hnew, stampsBelow_zero_iff, hnodes, hedges] at hzero
    exact hzero
  · intro hempty tickets
    have hread : ∀ {ρ : Type} {m : FiniteMap UInt64 ρ} (p p' : ρ → Bool) (id : UInt64),
        m = ∅ → (m.get id).filter p = (m.get id).filter p' := by
      intro ρ m p p' id hm
      rw [hm, FiniteMap.get_empty]
      rfl
    refine ⟨reopened, hopen, fun id => ?_, fun id => ?_, fun k _ => ?_⟩
    · show (reopened.nodes.records.get id).filter _ = (db.nodes.records.get id).filter _
      rw [hnodes]
      exact hread _ _ id hempty.1
    · show (reopened.edges.records.get id).filter _ = (db.edges.records.get id).filter _
      rw [hedges]
      exact hread _ _ id hempty.2
    · have hbelow := stampsBelow_zero_iff.mpr (hnodes ▸ hedges ▸ hempty)
      exact hbelow.mono UInt64.zero_le

end Persistent
end Database

/-- **A restart preserves what readers see as long as no transaction has written anything.**
Any number of write transactions, one at a time, on a directory as earlier runs left it: all of
them end, and the stamps of what is then in the stores decide whether a restart is noticed by a
reader, or by the tickets up to the last one before the dispenser runs over. Beyond that one
the stores must be empty. -/
theorem restart_preserves_iff [Bincode Node] [Bincode Edge] [Bincode (Option Value)]
    {dir : Directory} {logs : DirLogs} (hdir : dir.Holds logs) (scripts : List TxScript) :
    ∃ opened db, Database.open dir = .ok opened ∧
      run Database.runTx opened scripts = some db ∧
      (Database.AllFit logs db →
        (∀ tickets, 0 < tickets → tickets < 2 ^ 64 →
          (db.RestartPreserves tickets ↔ db.NeverStamped)) ∧
        ((∀ tickets, db.RestartPreserves tickets) ↔
          db.nodes.records = ∅ ∧ db.edges.records = ∅)) := by
  obtain ⟨opened, hopen, hlog, hidle, -⟩ := Database.open_logged hdir
  obtain ⟨db, hrun, hlogged, -⟩ := hlog.runTxs scripts hidle
  exact ⟨opened, db, hopen, hrun, fun hfit =>
    ⟨fun _ hpos hlt => hlogged.restartPreserves_iff hfit hpos hlt,
      hlogged.restartPreserves_all_iff hfit⟩⟩

/-! ## A committed node, and it is gone -/

/-- One transaction that creates a node and commits. -/
def createOne : TxScript := { calls := [.createNode [7] 0], commits := true }

/-- The database after `createOne`. -/
def Database.afterOne : Database := (Database.fresh.runTx createOne).getD Database.fresh

/-- The node was there to be read before the restart. -/
theorem restart_hides_committed :
    ¬ ∀ (dir : Directory) (logs : DirLogs) (scripts : List TxScript) (opened db : Database),
      dir.Holds logs → Database.open dir = .ok opened →
      run Database.runTx opened scripts = some db → Database.AllFit logs db →
      ∀ tickets, db.RestartPreserves tickets := by
  intro h
  have hfit : Database.AllFit ⟨[], [], []⟩ Database.afterOne := ⟨by decide, by decide⟩
  have hrun : run Database.runTx Database.fresh [createOne] = some Database.afterOne := rfl
  obtain ⟨opened, hopen, hlog, hidle, -⟩ := Database.open_logged Directory.fresh_holds
  obtain rfl : Database.fresh = opened := Except.ok.inj hopen
  obtain ⟨db, hdb, hlogged, -⟩ := hlog.runTxs [createOne] hidle
  rw [hrun, Option.some.injEq] at hdb
  subst hdb
  have hone := h _ _ [createOne] _ _ Directory.fresh_holds hopen hrun hfit 1
  have hstamps := (hlogged.restartPreserves_iff hfit Nat.one_pos (by decide)).mp hone
  have hnode : Database.afterOne.nodes.get 0 = some (Node.new 0 [7] 0 1) := by decide
  exact absurd (hstamps.nodes 0 _ hnode).1 (by decide)

/-- The same database, under the theorem. -/
theorem restart_preserves_iff_one :
    (∀ tickets, 0 < tickets → tickets < 2 ^ 64 →
      (Database.afterOne.RestartPreserves tickets ↔ Database.afterOne.NeverStamped)) ∧
    ((∀ tickets, Database.afterOne.RestartPreserves tickets) ↔
      Database.afterOne.nodes.records = ∅ ∧ Database.afterOne.edges.records = ∅) := by
  obtain ⟨opened, db, hopen, hrun, hiff⟩ :=
    restart_preserves_iff Directory.fresh_holds [createOne]
  obtain rfl : Database.fresh = opened := Except.ok.inj hopen
  obtain rfl : Database.afterOne = db := Option.some.inj hrun
  exact hiff ⟨by decide, by decide⟩

end LightGraph
