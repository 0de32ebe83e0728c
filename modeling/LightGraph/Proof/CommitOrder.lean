import LightGraph.Lib.Serial
import LightGraph.Storage.Bincode
import LightGraph.Proof.DatabaseLogs
import LightGraph.Transaction.Commits

/-!
# Commits in ticket order

The ticket lock orders the turns: commits get theirs in ascending order of their ids
(`Tickets.ordered`). It does not order what comes after a turn. The next commit has its own as
soon as the counter has moved, and its writes may be done before, between or behind the writes
of the one in front.

So the maps are those of the transactions one after the other as long as a write done late —
behind one of a transaction with a larger id — commutes with what it is late for (`InOrder`).
Writes of different cells do (`Maps.write_comm`); two updates of one node do not, and the one
done last stays whatever its ticket (`late_update_stays`).
-/

set_option autoImplicit false

namespace LightGraph

open Lib

/-- The effect of a write, tagged with its transaction. -/
def Maps.act (m : Maps) (a : TxId × StoreWrite) : Maps := m.write a.1 a.2

namespace Clients

/-- The tickets of the write transactions under way. -/
def tickets (s : Clients) : List TxId := s.writers.map (·.txId)

/-- The tickets of the commits that have had their turn, in the order of their turns. -/
def served (s : Clients) : List TxId := s.commits.map (·.txId)

/-- What each commit has done so far. -/
def performed (s : Clients) : List (List (TxId × StoreWrite)) :=
  s.commits.map fun c => c.performed.map fun w => (c.txId, w)

/-- The ticket lock, as every schedule leaves it until the dispenser runs over. -/
structure Tickets (s : Clients) : Prop where
  fresh : s.db.txManager.committedTxId < s.db.txManager.nextTxId
  held : ∀ t ∈ s.tickets, s.db.txManager.committedTxId < t ∧ t < s.db.txManager.nextTxId
  distinct : s.tickets.Nodup
  passed : ∀ t ∈ s.served, t ≤ s.db.txManager.committedTxId
  ordered : s.served.Pairwise (· < ·)
  snapshots : ∀ r ∈ s.readers, r.snapshot ≤ s.db.txManager.committedTxId

/-- Fewer than `2 ^ 64 - 1` tickets are handed out. -/
def HasTicket (s : Clients) : ClientStep → Prop
  | .beginWrite => s.db.txManager.nextTxId < maxTxId
  | _ => True

/-! ## The ticket lock -/

theorem map_set_same {α β : Type} {f : α → β} {l : List α} {i : Nat} {a b : α}
    (h : l[i]? = some a) (hf : f b = f a) : (l.set i b).map f = l.map f := by
  rw [List.map_set, hf]
  apply List.ext_getElem?
  intro j
  rw [List.getElem?_set, List.getElem?_map]
  split
  · rename_i hij
    subst hij
    rw [h]
    split
    · rfl
    · rename_i hout
      have hin := (List.getElem?_eq_some_iff.mp h).1
      rw [List.length_map] at hout
      exact absurd hin hout
  · rfl

theorem sub_one_lt {t c : TxId} (h : c = t - 1) (hpos : c < t) :
    ∀ {u : TxId}, c < u → u ≠ t → t < u := by
  intro u hu hne
  -- something is below `t`, so `t - 1` does not wrap
  have hne' : u.toNat ≠ t.toNat := fun heq => hne (UInt64.toNat_inj.mp heq)
  have hone : (1 : UInt64).toNat = 1 := rfl
  rw [UInt64.lt_iff_toNat_lt] at hpos hu ⊢
  have hc : c.toNat = t.toNat - 1 := by
    rw [h, UInt64.toNat_sub_of_le, hone]
    rw [UInt64.le_iff_toNat_le, hone]
    omega
  omega

/-- The counter moves to a ticket that was held. -/
theorem Tickets.advance {s : Clients} (h : s.Tickets) {i : Nat} {tx : Transaction}
    {m : TxManager} (hi : s.writers[i]? = some tx)
    (hm : s.db.txManager.advance tx.txId = some m) :
    m.nextTxId = s.db.txManager.nextTxId ∧ m.committedTxId = tx.txId ∧
    s.db.txManager.committedTxId < tx.txId ∧ tx.txId < s.db.txManager.nextTxId ∧
    (s.tickets.eraseIdx i).Nodup ∧
    ∀ t ∈ s.tickets.eraseIdx i, tx.txId < t ∧ t < s.db.txManager.nextTxId := by
  obtain ⟨hturn, rfl⟩ := TxManager.advance_eq_some_iff.mp hm
  have hit : s.tickets[i]? = some tx.txId := by rw [tickets, List.getElem?_map, hi]; rfl
  obtain ⟨hlt, hget⟩ := List.getElem?_eq_some_iff.mp hit
  have hperm := List.getElem_cons_eraseIdx_perm hlt
  rw [hget] at hperm
  obtain ⟨hnot, hnodup⟩ := List.nodup_cons.mp (hperm.nodup_iff.mpr h.distinct)
  obtain ⟨hheld, hnext⟩ := h.held tx.txId (List.mem_of_getElem? hit)
  refine ⟨rfl, rfl, hheld, hnext, hnodup, fun t ht => ?_⟩
  obtain ⟨ht', hn⟩ := h.held t (List.mem_of_mem_eraseIdx ht)
  exact ⟨sub_one_lt hturn hheld ht' fun heq => hnot (heq ▸ ht), hn⟩

/-- A writer leaves at its turn, to commit or to roll back. -/
theorem Tickets.leave {s : Clients} (h : s.Tickets) {i : Nat} {tx : Transaction}
    {m : TxManager} (hi : s.writers[i]? = some tx)
    (hm : s.db.txManager.advance tx.txId = some m) :
    ({ s with db := s.db.withManager m, writers := s.writers.eraseIdx i } : Clients).Tickets := by
  obtain ⟨hnext, hcom, hlt, hbelow, hnodup, hheld⟩ := h.advance hi hm
  refine ⟨?_, ?_, ?_, ?_, h.ordered, ?_⟩
  · rw [Database.withManager, hnext, hcom]
    exact hbelow
  · rw [Database.withManager, hnext, hcom, tickets, ← List.eraseIdx_map]
    exact hheld
  · rw [tickets, ← List.eraseIdx_map]
    exact hnodup
  · rw [Database.withManager, hcom]
    exact fun t ht => UInt64.le_of_lt (UInt64.lt_of_le_of_lt (h.passed t ht) hlt)
  · rw [Database.withManager, hcom]
    exact fun r hr => UInt64.le_of_lt (UInt64.lt_of_le_of_lt (h.snapshots r hr) hlt)

section Persistent
variable [Bincode Node] [Bincode Edge] [Bincode (Option Value)]

theorem Tickets.step {s s' : Clients} {a : ClientStep} (h : s.Tickets) (hg : s.HasTicket a)
    (hs : s.step a = some s') : s'.Tickets := by
  cases a with
  | beginRead =>
    simp only [Clients.step, Option.some.injEq] at hs
    subst hs
    refine ⟨h.fresh, h.held, h.distinct, h.passed, h.ordered, fun r hr => ?_⟩
    rcases List.mem_append.mp hr with hr | hr
    · exact h.snapshots r hr
    · rw [List.mem_singleton.mp hr]
      exact UInt64.le_refl _
  | beginWrite =>
    simp only [Clients.step, Option.some.injEq] at hs
    subst hs
    -- the guard keeps the dispenser from wrapping
    have hnext : s.db.txManager.nextTxId < s.db.txManager.nextTxId + 1 := lt_add_one_of_lt_max hg
    have htickets : ∀ db : Database, ({ s with
        db, writers := s.writers ++ [s.db.beginWrite.1] } : Clients).tickets
          = s.tickets ++ [s.db.txManager.nextTxId] := by
      intro db
      rw [tickets, List.map_append]
      rfl
    refine ⟨UInt64.lt_trans h.fresh hnext, fun t ht => ?_, ?_, h.passed, h.ordered, h.snapshots⟩
    · rw [htickets] at ht
      rcases List.mem_append.mp ht with ht | ht
      · exact ⟨(h.held t ht).1, UInt64.lt_trans (h.held t ht).2 hnext⟩
      · rw [List.mem_singleton.mp ht]
        exact ⟨h.fresh, hnext⟩
    · rw [htickets, List.nodup_append]
      refine ⟨h.distinct, List.nodup_singleton _, fun t ht u hu heq => ?_⟩
      rw [heq, List.mem_singleton.mp hu] at ht
      exact UInt64.lt_irrefl _ (h.held _ ht).2
  | call i c =>
    obtain ⟨tx, hi, rfl⟩ := step_call_inv hs
    obtain ⟨-, hmanager, hid, -⟩ := Database.apply_same (tx, s.db) c
    have htickets := map_set_same (f := (·.txId)) hi hid
    refine ⟨?_, ?_, ?_, ?_, h.ordered, ?_⟩
    · rw [hmanager]
      exact h.fresh
    · rw [tickets, htickets, hmanager]
      exact h.held
    · rw [tickets, htickets]
      exact h.distinct
    · rw [hmanager]
      exact h.passed
    · rw [hmanager]
      exact h.snapshots
  | turn i =>
    obtain ⟨tx, m, hi, hm, rfl⟩ := step_turn_inv hs
    obtain ⟨-, hcom, hlt, -⟩ := h.advance hi hm
    have hleave := h.leave hi hm
    -- whoever was served had a ticket the counter has reached, and it now moves on
    have hserved : ∀ t ∈ s.served, t < tx.txId := fun t ht =>
      UInt64.lt_of_le_of_lt (h.passed t ht) hlt
    refine ⟨hleave.fresh, hleave.held, hleave.distinct, ?_, ?_, hleave.snapshots⟩
    · rw [served, List.map_append]
      intro t ht
      rcases List.mem_append.mp ht with ht | ht
      · exact hleave.passed t ht
      · rw [List.mem_singleton.mp ht, Database.withManager, hcom]
        exact UInt64.le_refl _
    · rw [served, List.map_append, List.pairwise_append]
      refine ⟨h.ordered, List.pairwise_singleton _ _, fun t ht u hu => ?_⟩
      rw [List.mem_singleton.mp hu]
      exact hserved t ht
  | write i =>
    obtain ⟨c, w, c', hi, hnext, rfl⟩ := step_write_inv hs
    have hid : c'.txId = c.txId := by rw [Commit.txId, (Commit.next_spec hnext).1]
    have hserved := map_set_same (f := fun c : Commit => c.txId) hi hid
    have hmanager := Database.perform_txManager s.db c.txId w
    refine ⟨?_, ?_, h.distinct, ?_, ?_, ?_⟩
    · rw [hmanager]
      exact h.fresh
    · rw [hmanager]
      exact h.held
    · rw [served, hserved, hmanager]
      exact h.passed
    · rw [served, hserved]
      exact h.ordered
    · rw [hmanager]
      exact h.snapshots
  | rollback i =>
    obtain ⟨tx, m, hi, hm, rfl⟩ := step_rollback_inv hs
    exact h.leave hi hm

/-! ## Late writes -/

/-- A write finds nothing done by a larger ticket that it does not commute with. -/
def InOrder (s : Clients) : ClientStep → Prop
  | .write i => ∀ c w c', s.commits[i]? = some c → c.next = some (w, c') →
    ∀ d ∈ s.commits, c.txId < d.txId → ∀ w' ∈ d.performed,
      Commutes Maps.act (c.txId, w) (d.txId, w')
  | a => s.HasTicket a

omit [Bincode Node] [Bincode Edge] [Bincode (Option Value)] in
theorem InOrder.hasTicket {s : Clients} {a : ClientStep} (h : s.InOrder a) : s.HasTicket a := by
  cases a with
  | write i => trivial
  | beginRead => exact h
  | beginWrite => exact h
  | call i c => exact h
  | turn i => exact h
  | rollback i => exact h

omit [Bincode Node] [Bincode Edge] [Bincode (Option Value)] in
/-- In particular a write is in order whose cell no larger ticket has written. -/
theorem InOrder.of_cells {s : Clients} {i : Nat} {c c' : Commit} {w : StoreWrite}
    (hi : s.commits[i]? = some c) (hnext : c.next = some (w, c'))
    (h : ∀ d ∈ s.commits, c.txId < d.txId → ∀ w' ∈ d.performed, w.cell ≠ w'.cell) :
    s.InOrder (.write i) := by
  intro c₁ w₁ c₁' hi₁ hnext₁ d hd hlt w' hw' m
  obtain rfl : c = c₁ := Option.some.inj (hi.symm.trans hi₁)
  obtain ⟨rfl, -⟩ := Prod.mk.inj (Option.some.inj (hnext.symm.trans hnext₁))
  exact Maps.write_comm (h d hd hlt w' hw') m c.txId d.txId

/-- Ticket lock and maps: what is done stands as if done in ticket order. -/
structure Ordered (m : Maps) (s : Clients) : Prop where
  tickets : s.Tickets
  maps : s.db.maps = serial Maps.act m s.performed

omit [Bincode Node] [Bincode Edge] [Bincode (Option Value)] in
theorem Ordered.start {db : Database}
    (h : db.txManager.committedTxId < db.txManager.nextTxId) :
    (Clients.start db).Ordered db.maps := by
  refine ⟨⟨h, ?_, List.nodup_nil, ?_, List.Pairwise.nil, ?_⟩, rfl⟩
  · exact fun t ht => absurd ht List.not_mem_nil
  · exact fun t ht => absurd ht List.not_mem_nil
  · exact fun r hr => absurd hr List.not_mem_nil

theorem Ordered.write {m : Maps} {s : Clients} {i : Nat} {c c' : Commit} {w : StoreWrite}
    (h : s.Ordered m) (hg : s.InOrder (.write i)) (hi : s.commits[i]? = some c)
    (hnext : c.next = some (w, c')) :
    (s.db.perform c.txId w).maps = serial Maps.act m
      ((s.commits.set i c').map fun c => c.performed.map fun w => (c.txId, w)) := by
  obtain ⟨htx, hperf, -⟩ := Commit.next_spec hnext
  have hdone : s.performed[i]? = some (c.performed.map fun w => (c.txId, w)) := by
    rw [performed, List.getElem?_map, hi]
    rfl
  have hset : ((s.commits.set i c').map fun c => c.performed.map fun w => (c.txId, w))
      = s.performed.set i ((c.performed.map fun w => (c.txId, w)) ++ [(c.txId, w)]) := by
    rw [List.map_set, hperf, Commit.txId, htx, List.map_append]
    rfl
  rw [hset, serial_act hdone, ← h.maps, Database.perform_maps]
  · rfl
  · -- the threads behind are the larger tickets
    intro j bs hij hj
    rw [performed, List.getElem?_map, Option.map_eq_some_iff] at hj
    obtain ⟨d, hd, rfl⟩ := hj
    have hlt : c.txId < d.txId := by
      have hci : s.served[i]? = some c.txId := by rw [served, List.getElem?_map, hi]; rfl
      have hdj : s.served[j]? = some d.txId := by rw [served, List.getElem?_map, hd]; rfl
      obtain ⟨hil, hci⟩ := List.getElem?_eq_some_iff.mp hci
      obtain ⟨hjl, hdj⟩ := List.getElem?_eq_some_iff.mp hdj
      have hpair := List.pairwise_iff_getElem.mp h.tickets.ordered i j hil hjl hij
      rw [hci, hdj] at hpair
      exact hpair
    intro b hb
    obtain ⟨w', hw', rfl⟩ := List.mem_map.mp hb
    exact hg c w c' hi hnext d (List.mem_of_getElem? hd) hlt w' hw'

theorem Ordered.step {m : Maps} {s s' : Clients} {a : ClientStep} (h : s.Ordered m)
    (hg : s.InOrder a) (hs : s.step a = some s') : s'.Ordered m := by
  refine ⟨h.tickets.step hg.hasTicket hs, ?_⟩
  cases a with
  | beginRead =>
    simp only [Clients.step, Option.some.injEq] at hs
    subst hs
    exact h.maps
  | beginWrite =>
    simp only [Clients.step, Option.some.injEq] at hs
    subst hs
    exact h.maps
  | call i c =>
    obtain ⟨tx, -, rfl⟩ := step_call_inv hs
    exact (Database.apply_same (tx, s.db) c).1.maps.trans h.maps
  | turn i =>
    obtain ⟨tx, m', -, -, rfl⟩ := step_turn_inv hs
    rw [performed, List.map_append, serial_append]
    exact h.maps
  | write i =>
    obtain ⟨c, w, c', hi, hnext, rfl⟩ := step_write_inv hs
    exact h.write hg hi hnext
  | rollback i =>
    obtain ⟨tx, m', -, -, rfl⟩ := step_rollback_inv hs
    exact h.maps

end Persistent

/-- The maps after these transactions, each done as a whole before the next. -/
def oneByOne (m : Maps) (commits : List Commit) : Maps :=
  commits.foldl (fun m c => m.writeAll c.txId c.tx.writes) m

theorem writeAll_eq_act (txId : TxId) (ws : List StoreWrite) (m : Maps) :
    m.writeAll txId ws = (ws.map fun w => (txId, w)).foldl Maps.act m := by
  rw [List.foldl_map]
  rfl

/-- Once nothing remains to be done, what is done is everything. -/
theorem serial_performed {commits : List Commit} (h : ∀ c ∈ commits, c.remaining = []) :
    ∀ m, serial Maps.act m (commits.map fun c => c.performed.map fun w => (c.txId, w))
      = oneByOne m commits := by
  induction commits with
  | nil => exact fun _ => rfl
  | cons c commits ih =>
    intro m
    have hall : c.performed = c.tx.writes := by
      rw [← c.whole, h c List.mem_cons_self, List.append_nil]
    rw [List.map_cons, serial_cons, ih fun d hd => h d (List.mem_cons_of_mem c hd), hall,
      ← writeAll_eq_act]
    rfl

end Clients

/-- **Commits take effect in ticket order, as long as late writes commute with what they are
late for.** Any schedule of any number of clients: the commits had their turns in ascending
order of their ids, and once all of them have done their writes, the maps are those of the
whole transactions one after another in that order. -/
theorem commits_in_ticket_order [Bincode Node] [Bincode Edge] [Bincode (Option Value)]
    {db : Database} (hfresh : db.txManager.committedTxId < db.txManager.nextTxId)
    {steps : List ClientStep} {s : Clients}
    (hg : Guarded Clients.step Clients.InOrder (Clients.start db) steps)
    (h : run Clients.step (Clients.start db) steps = some s) :
    s.commits.Pairwise (fun c d => c.txId < d.txId) ∧
    ((∀ c ∈ s.commits, c.remaining = []) →
      s.db.maps = Clients.oneByOne db.maps s.commits) := by
  have hinv := guarded_invariant (I := Clients.Ordered db.maps)
    (fun s a s' hI hgood hs => hI.step hgood hs) (Clients.Ordered.start hfresh) hg h
  refine ⟨List.pairwise_map.mp hinv.tickets.ordered, fun hdone => ?_⟩
  rw [hinv.maps]
  exact Clients.serial_performed hdone db.maps

/-- Two transactions create a node each, and the larger ticket writes first. -/
def lateInsert : List ClientStep :=
  [.beginWrite, .beginWrite, .call 0 (.createNode [1] 0), .call 1 (.createNode [2] 0),
    .turn 0, .turn 0, .write 1, .write 0]

theorem commits_in_ticket_order_late :
    ∃ s, run Clients.step (Clients.start Database.memory) lateInsert = some s ∧
      s.commits.length = 2 ∧ s.db.maps = Clients.oneByOne Database.memory.maps s.commits := by
  have hguard : Guarded Clients.step Clients.InOrder (Clients.start Database.memory)
      lateInsert := by
    refine Guarded.cons rfl (by decide : (1 : TxId) < maxTxId) ?_
    refine Guarded.cons rfl (by decide : (2 : TxId) < maxTxId) ?_
    refine Guarded.cons rfl trivial (Guarded.cons rfl trivial ?_)
    refine Guarded.cons rfl trivial (Guarded.cons rfl trivial ?_)
    refine Guarded.cons rfl (Clients.InOrder.of_cells rfl rfl (by decide)) ?_
    exact Guarded.cons rfl (Clients.InOrder.of_cells rfl rfl (by decide)) trivial
  have hrun : run Clients.step (Clients.start Database.memory) lateInsert = some _ := rfl
  exact ⟨_, hrun, rfl, (commits_in_ticket_order (by decide) hguard hrun).2 (by decide)⟩

/-! ## Two updates of one node -/

/-- A node is created and committed; then two transactions update it, have their turns, and
write in the other order. -/
def lateUpdate : List ClientStep :=
  [.beginWrite, .call 0 (.createNode [1] 0), .turn 0, .write 0,
    .beginWrite, .beginWrite, .call 0 (.updateNodeLabels 0 [2]), .call 1 (.updateNodeLabels 0 [3]),
    .turn 0, .turn 0, .write 2, .write 1]

/-- The labels of the smaller ticket stay. -/
theorem late_update_stays :
    ¬ ∀ (db : Database) (steps : List ClientStep) (s : Clients),
      db.txManager.committedTxId < db.txManager.nextTxId →
      run Clients.step (Clients.start db) steps = some s →
      (∀ c ∈ s.commits, c.remaining = []) →
      s.commits.Pairwise (fun c d => c.txId < d.txId) ∧
      s.db.maps = Clients.oneByOne db.maps s.commits := by
  intro h
  obtain ⟨s, hrun⟩ : ∃ s, run Clients.step (Clients.start Database.memory) lateUpdate = some s :=
    ⟨_, rfl⟩
  have hs := Option.some.inj hrun
  obtain ⟨-, hmaps⟩ := h Database.memory lateUpdate s (by decide) hrun (by rw [← hs]; decide)
  have hnode := congrArg (fun m => m.nodes.get 0) hmaps
  rw [← hs] at hnode
  exact absurd hnode (by decide)

end LightGraph
