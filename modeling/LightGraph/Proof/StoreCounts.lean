import LightGraph.Proof.IdOwnership
import LightGraph.Proof.Recovery

/-!
# What a store says of its own size

`len`, `free_count`, `next_fresh_id` and `total_ever` are four numbers that nothing in the store
reads. The first three account for every id: what the counter has handed out is in the map, in the
free list or reserved, whatever the threads did to each other, as soon as none of them is in a call
(`ids_accounted`), provided that nobody inserts under an id of his own. The fourth counts inserts
while the store is open, and log records of the same kind when it is opened again; an update is
logged as an insert is, so that the two differ by the updates that found something
(`reopened_total`).
-/

set_option autoImplicit false

namespace LightGraph

open Lib

/-! ## The numbers -/

namespace RecordStore
variable {ρ : Type}

def len (s : RecordStore ρ) : Nat := s.records.keys.card

def nextFreshId (s : RecordStore ρ) : UInt64 := s.nextId

def contains (s : RecordStore ρ) (id : UInt64) : Bool := (s.records.get id).isSome

end RecordStore

/-! ## Counting the places -/

section Places
variable {ρ κ γ : Type}

theorem count_keys (m : FiniteMap UInt64 ρ) (id : UInt64) :
    m.keys.toList.count id = if (m.get id).isSome then 1 else 0 := by
  have hmem : id ∈ m.keys.toList ↔ (m.get id).isSome = true := by
    rw [Finset.mem_toList, FiniteMap.mem_keys_iff, Option.isSome_iff_exists]
  split
  · rename_i h
    exact List.count_eq_one_of_mem (Finset.nodup_toList _) (hmem.mpr h)
  · rename_i h
    exact List.count_eq_zero.mpr fun hin => h (hmem.mp hin)

/-- The ids a counter has handed out. -/
def idsBelow (next : UInt64) : List UInt64 := (List.range next.toNat).map UInt64.ofNat

theorem count_idsBelow (next id : UInt64) :
    (idsBelow next).count id = if id < next then 1 else 0 := by
  have hsize : ∀ k ∈ List.range next.toNat, (UInt64.ofNat k).toNat = k := by
    intro k hk
    exact UInt64.toNat_ofNat_of_lt' (Nat.lt_trans (List.mem_range.mp hk) next.toNat_lt)
  have hnodup : (idsBelow next).Nodup := by
    refine List.Nodup.map_on (fun a ha b hb heq => ?_) List.nodup_range
    rw [← hsize a ha, ← hsize b hb, heq]
  have hmem : id ∈ idsBelow next ↔ id < next := by
    rw [idsBelow, List.mem_map, UInt64.lt_iff_toNat_lt]
    constructor
    · rintro ⟨k, hk, rfl⟩
      rw [hsize k hk]
      exact List.mem_range.mp hk
    · intro hlt
      exact ⟨id.toNat, List.mem_range.mpr hlt, UInt64.ofNat_toNat⟩
  split
  · rename_i h
    exact List.count_eq_one_of_mem hnodup (hmem.mpr h)
  · rename_i h
    exact List.count_eq_zero.mpr fun hin => h (hmem.mp hin)

/-- **Every id is somewhere**: the ids handed out are those of the map, of the free list, of the
allocations and of the deletes under way. -/
theorem OnePlace.accounted {s : Threads (Shared ρ) (Pc ρ κ)} (h : OnePlace s) :
    s.shared.store.nextFreshId.toNat = s.shared.store.len + s.shared.store.freeList.length
      + (reservedIds s).length + (s.threads.flatMap Pc.freeing).length := by
  have hperm : (idsBelow s.shared.store.nextId).Perm
      (s.shared.store.records.keys.toList ++ s.shared.store.freeList ++ reservedIds s
        ++ s.threads.flatMap Pc.freeing) := by
    rw [List.perm_iff_count]
    intro id
    have hone := h id
    rw [places, handedOut, RecordStore.keyCount] at hone
    rw [count_idsBelow, List.count_append, List.count_append, List.count_append, count_keys]
    exact hone.symm
  have hlen := hperm.length_eq
  rw [idsBelow, List.length_map, List.length_range, List.length_append, List.length_append,
    List.length_append, Finset.length_toList] at hlen
  exact hlen

/-- The count of the free list goes with it. -/
def FreeCounted (sh : Shared ρ) : Prop :=
  sh.store.freeCount = UInt64.ofNat sh.store.freeList.length

variable [Bincode ρ] {I : Interface ρ κ γ} {sh sh' : Shared ρ} {p p' : Pc ρ κ} {m : Move γ}

theorem freeCount_walInsert (s : RecordStore ρ) (id : UInt64) (r : ρ) :
    (s.walInsert id r).freeCount = s.freeCount := by
  unfold RecordStore.walInsert
  split
  · rfl
  · split
    · rfl
    · rfl

theorem freeCount_modify (s : RecordStore ρ) (id : UInt64) (f : ρ → ρ) :
    (s.modify id f).1.freeCount = s.freeCount := by
  unfold RecordStore.modify
  split
  · exact freeCount_walInsert _ _ _
  · rfl

omit [Bincode ρ] in
theorem freeCount_walDelete (s : RecordStore ρ) (id : UInt64) :
    (s.walDelete id).freeCount = s.freeCount := by
  unfold RecordStore.walDelete
  split
  · rfl
  · rfl

/-- One id less in the free list. -/
theorem pop_count {l : List UInt64} {id : UInt64} {n : UInt64}
    (h : n = UInt64.ofNat (id :: l).length) : n - 1 = UInt64.ofNat l.length := by
  rw [h, List.length_cons, UInt64.ofNat_add]
  exact UInt64.add_sub_cancel _ _

theorem FreeCounted.step (h : FreeCounted sh) (hfires : I.Fires sh p m sh' p') :
    FreeCounted sh' := by
  unfold FreeCounted at h ⊢
  cases hfires with
  | insertPop hfree =>
    rw [hfree] at h
    exact pop_count h
  | allocPop hfree =>
    rw [hfree] at h
    exact pop_count h
  | deletePush =>
    show sh.store.freeCount + 1 = UInt64.ofNat (sh.store.freeList ++ [_]).length
    rw [List.length_append, List.length_singleton, UInt64.ofNat_add, h]
    rfl
  | modify =>
    rw [freeCount_modify, RecordStore.modify_freeList]
    exact h
  | insertSend =>
    rw [freeCount_walInsert, RecordStore.walInsert_freeList]
    exact h
  | persist =>
    rw [freeCount_walInsert, RecordStore.walInsert_freeList]
    exact h
  | deleteSend =>
    rw [freeCount_walDelete, RecordStore.walDelete_freeList]
    exact h
  | _ => exact h

/-- A store whose three counts add up. -/
structure Accounted (sh : Shared ρ) : Prop where
  free : sh.store.freeCount.toNat = sh.store.freeList.length
  all : sh.store.nextFreshId.toNat
    = sh.store.len + sh.store.freeCount.toNat + sh.reserved.length

theorem accounted_of_run {wal : Option WalLog} {n : Nat} {moves : List (Nat × Move γ)}
    {s : Threads (Shared ρ) (Pc ρ κ)}
    (hg : Guarded I.step I.Allowed (Interface.start { RecordStore.new with wal } n) moves)
    (hs : run I.step (Interface.start { RecordStore.new with wal } n) moves = some s)
    (hidle : ∀ p ∈ s.threads, p = .idle) : Accounted s.shared := by
  have hone : OnePlace s :=
    guarded_invariant (fun _ _ _ h hg hs => OnePlace.step h hg hs) (OnePlace.start wal n) hg hs
  have hstart : FreeCounted
      (Interface.start { RecordStore.new with wal } n : Threads (Shared ρ) (Pc ρ κ)).shared := rfl
  have hcounted : FreeCounted s.shared := by
    refine run_invariant (I := fun u : Threads (Shared ρ) (Pc ρ κ) => FreeCounted u.shared)
      (fun u a t hu hst => ?_) hstart hs
    obtain ⟨i, m⟩ := a
    obtain ⟨p, shared, p', -, hexec, rfl⟩ := Threads.step_inv hst
    exact hu.step (Interface.exec_fires hexec)
  -- a thread that is in no call holds no id
  have hnone : ∀ f : Pc ρ κ → List UInt64, f .idle = [] → s.threads.flatMap f = [] := by
    intro f hf
    rw [List.flatMap_eq_nil_iff]
    intro p hp
    rw [hidle p hp, hf]
  have hall := hone.accounted
  rw [reservedIds, hnone Pc.reserving rfl, hnone Pc.freeing rfl, List.append_nil, List.length_nil,
    Nat.add_zero] at hall
  have hsmall : s.shared.store.freeList.length < 2 ^ 64 := by
    have hlt := s.shared.store.nextFreshId.toNat_lt
    omega
  have hfree : s.shared.store.freeCount.toNat = s.shared.store.freeList.length := by
    rw [hcounted]
    exact UInt64.toNat_ofNat_of_lt' hsmall
  exact ⟨hfree, by rw [hfree]; exact hall⟩

end Places

/-- **Every id is accounted for** whenever no call is under way: what the counter has handed out is
the records, the freed ids and the reserved ones. An id that a caller inserts under must be one it
reserved, and the counter must not turn over. -/
theorem ids_accounted [Bincode Node] [Bincode Edge] :
    (∀ (wal : Option WalLog) (n : Nat) (moves : List (Nat × Move NodeCall))
      (s : Threads (Shared Node) (Pc Node Empty)),
      Guarded nodeThreads.step nodeThreads.Allowed
        (Interface.start { RecordStore.new with wal } n) moves →
      run nodeThreads.step (Interface.start { RecordStore.new with wal } n) moves = some s →
      (∀ p ∈ s.threads, p = .idle) → Accounted s.shared) ∧
    (∀ (wal : Option WalLog) (n : Nat) (moves : List (Nat × Move EdgeCall))
      (s : Threads (Shared Edge) (Pc Edge EdgeEdit)),
      Guarded edgeThreads.step edgeThreads.Allowed
        (Interface.start { RecordStore.new with wal } n) moves →
      run edgeThreads.step (Interface.start { RecordStore.new with wal } n) moves = some s →
      (∀ p ∈ s.threads, p = .idle) → Accounted s.shared) :=
  ⟨fun _ _ _ _ hg hs hidle => accounted_of_run hg hs hidle,
    fun _ _ _ _ hg hs hidle => accounted_of_run hg hs hidle⟩

/-- A record is inserted, taken out again, and its id freed. -/
def insertedAndDeleted {γ : Type} (insert hardDelete : γ) : List (Nat × Move γ) :=
  [(0, .call insert), (0, .step), (0, .step), (0, .step), (0, .step), (0, .call hardDelete),
    (0, .step), (0, .step), (0, .step)]

theorem ids_accounted_one :
    (∃ s, run nodeThreads.step (Interface.start { RecordStore.new with wal := none } 1)
        (insertedAndDeleted (.op (.insertNode [] 0 1)) (.op (.hardDelete 0))) = some s ∧
      Accounted s.shared) ∧
    ∃ s, run edgeThreads.step (Interface.start { RecordStore.new with wal := none } 1)
        (insertedAndDeleted (.op (.insertEdge 0 1 0 0 1)) (.op (.hardDelete 0))) = some s ∧
      Accounted s.shared := by
  have hfirst : (0 : UInt64) < maxTxId := by decide
  have hsecond : (1 : UInt64) < maxTxId := by decide
  have hnodes : Guarded nodeThreads.step nodeThreads.Allowed
      (Interface.start { RecordStore.new with wal := none } 1)
      (insertedAndDeleted (.op (.insertNode [] 0 1)) (.op (.hardDelete 0))) := by
    refine Guarded.cons rfl (fun _ _ h => by cases h) ?_
    refine Guarded.cons rfl (fun _ => hfirst) (Guarded.cons rfl (fun _ => hfirst) ?_)
    refine Guarded.cons rfl (fun _ => hsecond) (Guarded.cons rfl (fun _ => hsecond) ?_)
    refine Guarded.cons rfl (fun _ _ h => by cases h) ?_
    refine Guarded.cons rfl (fun _ => hsecond) (Guarded.cons rfl (fun _ => hsecond) ?_)
    exact Guarded.cons rfl (fun _ => hsecond) trivial
  have hedges : Guarded edgeThreads.step edgeThreads.Allowed
      (Interface.start { RecordStore.new with wal := none } 1)
      (insertedAndDeleted (.op (.insertEdge 0 1 0 0 1)) (.op (.hardDelete 0))) := by
    refine Guarded.cons rfl (fun _ _ h => by cases h) ?_
    refine Guarded.cons rfl (fun _ => hfirst) (Guarded.cons rfl (fun _ => hfirst) ?_)
    refine Guarded.cons rfl (fun _ => hsecond) (Guarded.cons rfl (fun _ => hsecond) ?_)
    refine Guarded.cons rfl (fun _ _ h => by cases h) ?_
    refine Guarded.cons rfl (fun _ => hsecond) (Guarded.cons rfl (fun _ => hsecond) ?_)
    exact Guarded.cons rfl (fun _ => hsecond) trivial
  have hidle : ∀ {ρ κ : Type} (p : Pc ρ κ), p ∈ [Pc.idle] → p = .idle :=
    fun p hp => List.mem_singleton.mp hp
  exact ⟨⟨_, rfl, ids_accounted.1 none 1 _ _ hnodes rfl hidle⟩,
    _, rfl, ids_accounted.2 none 1 _ _ hedges rfl hidle⟩

/-! ## The total -/

/-- The node a call changes in place. -/
def NodeOp.updated : NodeOp → Option NodeId
  | .updateLabels id _ _ => some id
  | .updatePropsRow id _ => some id
  | .setFirstOut id _ => some id
  | .setFirstIn id _ => some id
  | .softDelete id _ => some id
  | _ => none

/-- The call finds a node to change. -/
def NodeStore.changes (s : NodeStore) (op : NodeOp) : Bool := op.updated.any s.contains

/-- How many calls of a run do. -/
def NodeStore.changeCount [Bincode Node] : NodeStore → List NodeOp → Nat
  | _, [] => 0
  | s, op :: ops => (if s.changes op then 1 else 0) + changeCount (s.perform op) ops

section Total
variable [Bincode Node] (log : List LogRecord) {s t : NodeStore}

/-- The INSERT records of a log, as `open` counts them. -/
def insertedIn (log : List LogRecord) : UInt64 := (Replay.ofLog log : Replay Node).inserted

theorem insertedIn_append (log rs : List LogRecord) :
    insertedIn (log ++ rs)
      = (rs.foldl Replay.onRecord (Replay.ofLog log : Replay Node)).inserted := by
  rw [insertedIn, Replay.ofLog, List.foldl_append]
  rfl

theorem insertedIn_insert {id : UInt64} {n : Node}
    (h : s.toRecordStore.Logs t.toRecordStore [.insert id (Bincode.bytes n)]) :
    insertedIn (log ++ t.history) = insertedIn (log ++ s.history) + 1 := by
  have hone : LightGraph.records [.insert id (Bincode.bytes n)]
      = [⟨1, id, Bincode.bytes n⟩] := rfl
  rw [h.history, ← List.append_assoc, insertedIn_append, hone, List.foldl_cons, List.foldl_nil,
    Replay.onRecord, if_pos rfl]
  simp only [Bincode.deserialize_bytes]
  rfl

theorem insertedIn_other {cmds : List WalCmd} (h : s.toRecordStore.Logs t.toRecordStore cmds)
    (hcmds : cmds = [] ∨ ∃ id, cmds = [.delete id]) :
    insertedIn (log ++ t.history) = insertedIn (log ++ s.history) := by
  rcases hcmds with rfl | ⟨id, rfl⟩
  · rw [h.history, records_nil, List.append_nil]
  · have hone : LightGraph.records [.delete id] = [⟨2, id, []⟩] := rfl
    rw [h.history, ← List.append_assoc, insertedIn_append, hone, List.foldl_cons, List.foldl_nil,
      Replay.onRecord, if_neg (by simp), if_pos rfl]
    dsimp only
    split
    · rfl
    · rfl

/-- A change in place is logged as an insert is, if there is a node to change. -/
theorem insertedIn_modify {w : WalLog} (h : s.wal = some w) (id : NodeId) (f : Node → Node) :
    insertedIn (log ++ (s.toRecordStore.modify id f).1.history)
      = insertedIn (log ++ s.history) + (if s.contains id then 1 else 0) := by
  unfold RecordStore.modify RecordStore.contains
  cases hget : s.records.get id with
  | none => exact (UInt64.add_zero _).symm
  | some n =>
    exact insertedIn_insert log
      (t := { s with toRecordStore := s.toRecordStore.insertWithId id (f n) })
      (RecordStore.insertWithId_logs h id (f n))

/-- **What a call adds** to the count of the log and to the live one. -/
theorem insertedIn_perform {w : WalLog} (h : s.wal = some w) (op : NodeOp) :
    insertedIn (log ++ (s.perform op).history) + s.totalEver
      = insertedIn (log ++ s.history) + (s.perform op).totalEver
        + (if s.changes op then 1 else 0) := by
  have hmodify : ∀ (id : NodeId) (f : Node → Node),
      insertedIn (log ++ (s.modify id f).1.history) + s.totalEver
        = insertedIn (log ++ s.history) + (s.modify id f).1.totalEver
          + (if s.contains id then 1 else 0) := by
    intro id f
    show insertedIn (log ++ (s.toRecordStore.modify id f).1.history) + s.totalEver
      = insertedIn (log ++ s.history) + s.totalEver + _
    rw [insertedIn_modify log h]
    grind
  cases op with
  | insertNode labels propsRow txId =>
    have hins := insertedIn_insert log (s := s)
      (t := s.perform (.insertNode labels propsRow txId))
      (RecordStore.insert_logs h fun id => Node.new id labels propsRow txId)
    rw [hins]
    show _ = _ + (s.totalEver + 1) + _
    simp only [NodeStore.changes, NodeOp.updated, Option.any_none, Bool.false_eq_true, if_false]
    grind
  | allocIdDirect =>
    have hno := insertedIn_other log (s := s) (t := s.perform .allocIdDirect)
      (RecordStore.allocId_logs h) (Or.inl rfl)
    rw [hno]
    exact (UInt64.add_zero _).symm
  | insertWithId id labels propsRow txId =>
    have hins := insertedIn_insert log (s := s)
      (t := s.perform (.insertWithId id labels propsRow txId))
      (RecordStore.insertWithId_logs h id _)
    rw [hins]
    show _ = _ + (s.totalEver + 1) + _
    simp only [NodeStore.changes, NodeOp.updated, Option.any_none, Bool.false_eq_true, if_false]
    grind
  | updateLabels id labels txId => exact hmodify id _
  | updatePropsRow id propsRow => exact hmodify id _
  | setFirstOut id edgeId => exact hmodify id _
  | setFirstIn id edgeId => exact hmodify id _
  | softDelete id txId => exact hmodify id _
  | hardDelete id =>
    have hno := insertedIn_other log (s := s) (t := s.perform (.hardDelete id))
      (RecordStore.hardDelete_logs h id) (Or.inr ⟨id, rfl⟩)
    rw [hno]
    exact (UInt64.add_zero _).symm

theorem insertedIn_run (ops : List NodeOp) : ∀ {s : NodeStore} {w : WalLog}, s.wal = some w →
    insertedIn (log ++ (ops.foldl NodeStore.perform s).history) + s.totalEver
      = insertedIn (log ++ s.history) + (ops.foldl NodeStore.perform s).totalEver
        + UInt64.ofNat (s.changeCount ops) := by
  induction ops with
  | nil =>
    intro s w _
    exact (UInt64.add_zero _).symm
  | cons op ops ih =>
    intro s w h
    obtain ⟨cmds, -, hlogs⟩ := NodeStore.perform_logs h op
    obtain ⟨w', hw'⟩ := hlogs.isSome
    have hrest := ih hw'
    have hnow := insertedIn_perform log h op
    have hcount : UInt64.ofNat (s.changeCount (op :: ops))
        = (if s.changes op then 1 else 0) + UInt64.ofNat ((s.perform op).changeCount ops) := by
      rw [NodeStore.changeCount, UInt64.ofNat_add]
      split
      · rfl
      · rfl
    rw [List.foldl_cons, hcount]
    grind

end Total

/-- **The total after a restart.** A node store that is opened on its flushed log again has counted
the inserts of the last session once more, and every update of it that found its node as well. -/
theorem reopened_total [Bincode Node] {file : Bytes} {log : List LogRecord} {s t : NodeStore}
    {ops : List NodeOp} (hfile : LogHolds file log) (hopen : NodeStore.open file = .ok s)
    (hfit : ∀ r ∈ log ++ (ops.foldl NodeStore.perform s).history, r.Fits)
    (hreopen : NodeStore.open (ops.foldl NodeStore.perform s).file = .ok t) :
    t.totalEver
      = (ops.foldl NodeStore.perform s).totalEver + UInt64.ofNat (s.changeCount ops) := by
  obtain ⟨hsynced, hnil⟩ := NodeStore.open_synced hfile hopen
  obtain ⟨w, hw⟩ := hsynced.wal
  have htotal : ∀ {file : Bytes} {log : List LogRecord} {s : NodeStore}, LogHolds file log →
      NodeStore.open file = .ok s → s.totalEver = insertedIn log := by
    intro file log s hfile hopen
    rw [NodeStore.open, openReplay_eq hfile, Except.ok.injEq] at hopen
    rw [← hopen]
    rfl
  have hrun := insertedIn_run log ops hw
  have hend := NodeStore.loggedCalls.synced hsynced ops
  rw [hnil, List.append_nil, htotal hfile hopen] at hrun
  rw [htotal (hend.logHolds hfit) hreopen]
  grind

/-- Two nodes, and one of them updated. -/
def twoNodesOneUpdated : List NodeOp :=
  [.insertNode [1] 0 1, .insertNode [2] 0 1, .updateLabels 0 [3] 2]

/-- Three in all after the restart. -/
theorem reopened_total_three :
    ∃ t, NodeStore.open (twoNodesOneUpdated.foldl NodeStore.perform NodeStore.fresh).file = .ok t ∧
      t.totalEver = (twoNodesOneUpdated.foldl NodeStore.perform NodeStore.fresh).totalEver
        + UInt64.ofNat (NodeStore.fresh.changeCount twoNodesOneUpdated) := by
  have hfit : ∀ r ∈ [] ++ (twoNodesOneUpdated.foldl NodeStore.perform NodeStore.fresh).history,
      r.Fits := by decide
  have hsynced := NodeStore.loggedCalls.synced
    (NodeStore.open_synced LogHolds.empty NodeStore.open_nil).1 twoNodesOneUpdated
  obtain ⟨t, ht, -⟩ := NodeStore.open_eq (hsynced.logHolds hfit)
  exact ⟨t, ht, reopened_total LogHolds.empty NodeStore.open_nil hfit ht⟩

end LightGraph
