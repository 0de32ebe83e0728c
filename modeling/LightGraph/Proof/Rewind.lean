import LightGraph.Lib.Progress
import LightGraph.Proof.PropAgreement
import LightGraph.Proof.Restart
import LightGraph.Transaction.History

/-!
# A restart turns the clock back

The records come back with their stamps, and the clock that gave the stamps starts again at 0. So
a reader after the restart is a reader of the old database at an old moment: with the snapshot
`n`, which it has after `n` transactions at the most, it finds what the snapshot `n` had there.
What was committed later is not there yet, and what was deleted later is there again. Only the
records that a transaction has written since are as that transaction left them.
-/

set_option autoImplicit false

namespace LightGraph

open Lib

def HistoryStep.beginsWrite : HistoryStep → Bool
  | .beginWrite => true
  | _ => false

/-- How many write transactions have ended in a history: those it began that are open no more. A
commit that is out of turn ends nothing. -/
def History.endedCount (h : History) (steps : List HistoryStep) : Nat :=
  steps.countP HistoryStep.beginsWrite - h.writers.length

/-- No transaction committed in this history has written the cell. -/
def History.Untouched (h : History) (c : Cell) : Prop :=
  ∀ tx ∈ h.committed, ∀ w ∈ tx.writes, w.cell ≠ c

/-- The two have the same in this cell. -/
def Maps.EqualAt (m m' : Maps) : Cell → Prop
  | .node id => m'.nodes.get id = m.nodes.get id
  | .edge id => m'.edges.get id = m.edges.get id
  | .prop label prop row => m'.props.cell (label, prop, row) = m.props.cell (label, prop, row)

/-! ## The clock -/

/-- A turn moves the counter by one at the most. -/
theorem TxManager.advance_le {m m' : TxManager} {txId : TxId} (h : m.advance txId = some m') :
    m'.committedTxId.toNat ≤ m.committedTxId.toNat + 1 := by
  obtain ⟨hturn, rfl⟩ := advance_eq_some_iff.mp h
  have hback : txId = m.committedTxId + 1 := by rw [hturn, UInt64.sub_add_cancel]
  have hone : (1 : UInt64).toNat = 1 := rfl
  show txId.toNat ≤ _
  rw [hback, UInt64.toNat_add, hone]
  exact Nat.mod_le _ _

section Persistent
variable [Bincode Node] [Bincode Edge] [Bincode (Option Value)]

namespace History

/-- The counter and the snapshots taken of it are within the transactions that have ended, `n` that
have begun less those that are open. -/
structure Clocked (n : Nat) (h : History) : Prop where
  isOpen : h.Open
  committed : h.writers.length + h.db.txManager.committedTxId.toNat ≤ n
  readers : ∀ r ∈ h.readers, h.writers.length + r.snapshot.toNat ≤ n

variable {n : Nat} {h h' : History} {a : HistoryStep}

omit [Bincode Node] [Bincode Edge] [Bincode (Option Value)] in
/-- A transaction that ends moves the counter by one at the most. -/
theorem Clocked.end (hc : h.Clocked n) {i : Nat} {tx : Transaction} {m : TxManager}
    (htx : h.writers[i]? = some tx) (hadv : h.db.txManager.advance tx.txId = some m) {db : Database}
    (hdb : db.txManager = m) {committed : List Transaction} :
    ({ h with db, writers := h.writers.eraseIdx i, committed } : History).Clocked n := by
  have hlen : (h.writers.eraseIdx i).length + 1 = h.writers.length := by
    have hi := (List.getElem?_eq_some_iff.mp htx).1
    rw [List.length_eraseIdx_of_lt hi]
    omega
  refine ⟨fun tx' htx' => hc.isOpen tx' (List.mem_of_mem_eraseIdx htx'), ?_, fun r hr => ?_⟩
  · have hle := TxManager.advance_le hadv
    have hcommitted := hc.committed
    show (h.writers.eraseIdx i).length + db.txManager.committedTxId.toNat ≤ n
    rw [hdb]
    omega
  · have hreader := hc.readers r hr
    show (h.writers.eraseIdx i).length + r.snapshot.toNat ≤ n
    omega

theorem Clocked.step (hc : h.Clocked n) (hs : h.step a = some h') :
    h'.Clocked (n + if a.beginsWrite then 1 else 0) := by
  cases a with
  | beginRead =>
    obtain rfl := Option.some.inj hs
    refine ⟨hc.isOpen, hc.committed, fun r hr => ?_⟩
    rcases List.mem_append.mp hr with hr | hr
    · exact hc.readers r hr
    · rw [List.mem_singleton.mp hr]
      exact hc.committed
  | beginWrite =>
    obtain rfl := Option.some.inj hs
    have hlen : ∀ tx : Transaction, (h.writers ++ [tx]).length = h.writers.length + 1 :=
      fun tx => List.length_append
    refine ⟨fun tx htx => ?_, ?_, fun r hr => ?_⟩
    · rcases List.mem_append.mp htx with htx | htx
      · exact hc.isOpen tx htx
      · rw [List.mem_singleton.mp htx]
        exact ⟨rfl, rfl⟩
    · have hcommitted := hc.committed
      show (h.writers ++ [_]).length + h.db.txManager.committedTxId.toNat ≤ n + 1
      rw [hlen]
      omega
    · have hreader := hc.readers r hr
      show (h.writers ++ [_]).length + r.snapshot.toNat ≤ n + 1
      rw [hlen]
      omega
  | call i c =>
    simp only [History.step] at hs
    split at hs
    · exact absurd hs (by simp)
    · rename_i tx htx
      obtain rfl := Option.some.inj hs
      obtain ⟨-, hm, -, hwrite, hcommitted⟩ := Database.apply_same (tx, h.db) c
      obtain ⟨hw, hnot⟩ := hc.isOpen tx (List.mem_of_getElem? htx)
      have hlen : ∀ tx : Transaction, (h.writers.set i tx).length = h.writers.length :=
        fun tx => List.length_set
      refine ⟨fun tx' htx' => ?_, ?_, fun r hr => ?_⟩
      · rcases List.mem_or_eq_of_mem_set htx' with htx' | rfl
        · exact hc.isOpen tx' htx'
        · exact ⟨hwrite.trans hw, hcommitted.trans hnot⟩
      · show (h.writers.set i _).length
          + (TxCall.apply (tx, h.db) c).2.txManager.committedTxId.toNat ≤ n
        rw [hm, hlen]
        exact hc.committed
      · show (h.writers.set i _).length + r.snapshot.toNat ≤ n
        rw [hlen]
        exact hc.readers r hr
  | commit i =>
    rcases step_commit_inv hc.isOpen hs with rfl | ⟨tx, m, htx, hadv, rfl⟩
    · -- out of turn: nothing has ended
      exact hc
    · exact hc.end htx hadv (Database.performAll_txManager ..)
  | rollback i =>
    obtain ⟨tx, m, htx, hadv, rfl⟩ := step_rollback_inv hc.isOpen hs
    exact hc.end htx hadv rfl

omit [Bincode Node] [Bincode Edge] [Bincode (Option Value)] in
theorem start_clocked {db : Database} (hnew : db.txManager = TxManager.new) :
    (start db).Clocked 0 := by
  refine ⟨fun _ h => absurd h List.not_mem_nil, ?_, fun _ h => absurd h List.not_mem_nil⟩
  show 0 + db.txManager.committedTxId.toNat ≤ 0
  rw [hnew]
  exact Nat.le_refl _

end History
end Persistent

/-! ## What is not written stays -/

namespace Maps

theorem EqualAt.refl (m : Maps) : ∀ c, m.EqualAt m c
  | .node _ => rfl
  | .edge _ => rfl
  | .prop _ _ _ => rfl

theorem EqualAt.trans {m m' m'' : Maps} {c : Cell} (h : m.EqualAt m' c) (h' : m'.EqualAt m'' c) :
    m.EqualAt m'' c := by
  cases c with
  | node id => exact Eq.trans h' h
  | edge id => exact Eq.trans h' h
  | prop label prop row => exact Eq.trans h' h

theorem sameAt_write {m : Maps} {txId : TxId} {w : StoreWrite} {c : Cell} (hne : w.cell ≠ c) :
    m.EqualAt (m.write txId w) c := by
  rcases write_cases txId w with ⟨id, f, hcell, hw⟩ | ⟨id, f, hcell, hw⟩ |
    ⟨label, prop, row, val, hcell, hw⟩ <;> rw [hcell] at hne <;> rw [hw]
  · cases c with
    | node id' =>
      show (m.nodes.alter id f).get id' = _
      rw [FiniteMap.get_alter, if_neg fun heq => hne (by rw [heq])]
    | edge id' => rfl
    | prop label prop row => rfl
  · cases c with
    | node id' => rfl
    | edge id' =>
      show (m.edges.alter id f).get id' = _
      rw [FiniteMap.get_alter, if_neg fun heq => hne (by rw [heq])]
    | prop label prop row => rfl
  · cases c with
    | node id' => rfl
    | edge id' => rfl
    | prop label' prop' row' =>
      show (m.props.putCell label prop row val).cell (label', prop', row') = _
      rw [Columns.cell_putCell, if_neg]
      intro heq
      obtain ⟨rfl, rfl, rfl⟩ : label' = label ∧ prop' = prop ∧ row' = row := by simpa using heq
      exact hne rfl

theorem sameAt_writeAll {txId : TxId} {c : Cell} {ws : List StoreWrite} :
    ∀ {m : Maps}, (∀ w ∈ ws, w.cell ≠ c) → m.EqualAt (m.writeAll txId ws) c := by
  induction ws with
  | nil => exact fun _ => EqualAt.refl _ c
  | cons w ws ih =>
    intro m h
    exact (sameAt_write (h w List.mem_cons_self)).trans
      (ih fun w' hw' => h w' (List.mem_cons_of_mem w hw'))

end Maps

section Persistent
variable [Bincode Node] [Bincode Edge] [Bincode (Option Value)]

namespace History

variable {h h' : History} {a : HistoryStep}

/-- **One step**: what no committed transaction has written is as it was at the start. -/
theorem sameAt_step {m : Maps} {c : Cell} (hopen : h.Open)
    (hsame : h.Untouched c → m.EqualAt h.db.maps c) (hs : h.step a = some h') :
    h'.Untouched c → m.EqualAt h'.db.maps c := by
  cases a with
  | beginRead =>
    obtain rfl := Option.some.inj hs
    exact hsame
  | beginWrite =>
    obtain rfl := Option.some.inj hs
    exact hsame
  | call i call =>
    simp only [History.step] at hs
    split at hs
    · exact absurd hs (by simp)
    · rename_i tx htx
      obtain rfl := Option.some.inj hs
      intro huntouched
      have hmaps := (Database.apply_same (tx, h.db) call).1.maps
      show m.EqualAt (TxCall.apply (tx, h.db) call).2.maps c
      rw [hmaps]
      exact hsame huntouched
  | commit i =>
    rcases step_commit_inv hopen hs with rfl | ⟨tx, m', -, -, rfl⟩
    · exact hsame
    · intro huntouched
      have hbefore : h.Untouched c := fun tx' htx' =>
        huntouched tx' (List.mem_append_left _ htx')
      have hwrites : ∀ w ∈ tx.writes, w.cell ≠ c := huntouched { tx with committed := true }
        (List.mem_append_right _ List.mem_cons_self)
      show m.EqualAt (Database.performAll _ _ _).maps c
      rw [Database.performAll_maps]
      exact (hsame hbefore).trans (Maps.sameAt_writeAll hwrites)
  | rollback i =>
    obtain ⟨tx, m', -, -, rfl⟩ := step_rollback_inv hopen hs
    exact hsame

end History

/-- **A restart turns the clock back.** After any number of transactions, one after the other, on a
directory as earlier runs left it, the database is opened again, and any history of transactions
follows, several open at a time. A reader's snapshot is then no more than the number of transactions
ended since the restart, and every node and every edge that none of them has written reads as it did
in the old database at that snapshot. -/
theorem restart_rewinds {dir : Directory} {logs : DirLogs} (hdir : dir.Holds logs)
    (scripts : List TxScript) :
    ∃ opened db, Database.open dir = .ok opened ∧ run Database.runTx opened scripts = some db ∧
      (Database.AllFit logs db → ∃ reopened, Database.open db.dir = .ok reopened ∧
        ∀ steps h, run History.step (.start reopened) steps = some h → ∀ r ∈ h.readers,
          r.snapshot.toNat ≤ h.endedCount steps ∧
          (∀ id, h.Untouched (.node id) → r.getNode h.db id = r.getNode db id) ∧
          ∀ id, h.Untouched (.edge id) → r.getEdge h.db id = r.getEdge db id) := by
  obtain ⟨opened, hopen, hlog, hidle, -⟩ := Database.open_logged hdir
  obtain ⟨db, hrun, hlogged, -⟩ := hlog.runTxs scripts hidle
  refine ⟨opened, db, hopen, hrun, fun hfit => ?_⟩
  obtain ⟨reopened, hreopen, hnew, hnodes, hedges, -⟩ := hlogged.reopen hfit
  refine ⟨reopened, hreopen, fun steps h hsteps r hr => ?_⟩
  have hlater := run_counted (I := fun n (h : History) => h.Clocked n ∧
      ∀ c, h.Untouched c → reopened.maps.EqualAt h.db.maps c)
    (fun n s a t hs ht => ⟨hs.1.step ht, fun c => History.sameAt_step hs.1.isOpen (hs.2 c) ht⟩)
    (n := 0) ⟨History.start_clocked hnew, fun c _ => Maps.EqualAt.refl _ c⟩ hsteps
  rw [Nat.zero_add] at hlater
  obtain ⟨hclocked, hsame⟩ := hlater
  have hended : r.snapshot.toNat ≤ h.endedCount steps := by
    have hreader : h.writers.length + r.snapshot.toNat ≤ steps.countP HistoryStep.beginsWrite :=
      hclocked.readers r hr
    unfold History.endedCount
    omega
  refine ⟨hended, fun id huntouched => ?_, fun id huntouched => ?_⟩
  · have hnode : h.db.nodes.records.get id = reopened.nodes.records.get id := hsame _ huntouched
    show (h.db.nodes.records.get id).filter _ = (db.nodes.records.get id).filter _
    rw [hnode, hnodes]
  · have hedge : h.db.edges.records.get id = reopened.edges.records.get id := hsame _ huntouched
    show (h.db.edges.records.get id).filter _ = (db.edges.records.get id).filter _
    rw [hedge, hedges]

end Persistent

/-- The node that `createOne` has committed, read after a restart. -/
theorem restart_rewinds_one :
    ∃ reopened, Database.open Database.afterOne.dir = .ok reopened ∧
      ∀ steps h, run History.step (.start reopened) steps = some h → ∀ r ∈ h.readers,
        h.Untouched (.node 0) → r.getNode h.db 0 = r.getNode Database.afterOne 0 := by
  obtain ⟨opened, db, hopen, hrun, hrewinds⟩ := restart_rewinds Directory.fresh_holds [createOne]
  obtain rfl : Database.fresh = opened := Except.ok.inj hopen
  obtain rfl : Database.afterOne = db := Option.some.inj hrun
  obtain ⟨reopened, hreopen, hreads⟩ := hrewinds ⟨by decide, by decide⟩
  exact ⟨reopened, hreopen, fun steps h hsteps r hr => (hreads steps h hsteps r hr).2.1 0⟩

end LightGraph
