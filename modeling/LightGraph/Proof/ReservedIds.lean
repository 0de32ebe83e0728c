import LightGraph.Lib.Threads
import LightGraph.Proof.FreeList
import LightGraph.Transaction.Maps
import LightGraph.Transaction.Commits

/-!
# Ids between their allocation and their insert

`create_node` allocates an id at once and leaves the insert to the commit, so at any time there
are ids that are out of the free list and not yet in the map. They belong to nobody else: put
back into the free list, they leave the store as sound as it was (`RecordStore.Reserving`).
Every step of every client keeps that (`Clients.Reserved.step`), and what the rest of the
development takes from it is that an insert finds its id absent.
-/

set_option autoImplicit false

namespace LightGraph

open Lib
open scoped List

/-! ## One store -/

namespace RecordStore
variable {ρ : Type} {s t : RecordStore ρ} {ids ids' : List UInt64}

/-- The ids are reserved: neither keys nor free, each once, and below `next_id`. -/
def Reserving (s : RecordStore ρ) (ids : List UInt64) : Prop :=
  ({ s with freeList := ids ++ s.freeList } : RecordStore ρ).Sound

theorem Reserving.perm (h : s.Reserving ids) (hp : ids ~ ids') : s.Reserving ids' := by
  have hall : ids' ++ s.freeList ~ ids ++ s.freeList := hp.symm.append_right _
  exact ⟨fun id hkey hmem => h.disjoint id hkey (hall.mem_iff.mp hmem),
    hall.nodup_iff.mpr h.nodup, h.keyBelow, fun id hmem => h.freeBelow id (hall.mem_iff.mp hmem)⟩

/-- A rolled back transaction never gives its ids back. -/
theorem Reserving.drop (h : s.Reserving (ids' ++ ids)) : s.Reserving ids := by
  have hsub : ids ++ s.freeList <+ ids' ++ ids ++ s.freeList := by
    rw [List.append_assoc]
    exact List.sublist_append_right _ _
  exact ⟨fun id hkey hmem => h.disjoint id hkey (hsub.subset hmem), h.nodup.sublist hsub,
    h.keyBelow, fun id hmem => h.freeBelow id (hsub.subset hmem)⟩

theorem Reserving.absent (h : s.Reserving ids) {id : UInt64} (hid : id ∈ ids) :
    s.records.get id = none := by
  cases hget : s.records.get id with
  | none => rfl
  | some r =>
    have hkey : (s.records.get id).isSome = true := by rw [hget]; rfl
    exact absurd (List.mem_append_left _ hid) (h.disjoint id hkey)

/-- A change that makes no new key. -/
theorem Reserving.of_keys (h : s.Reserving ids)
    (hkeys : ∀ id, (t.records.get id).isSome = true → (s.records.get id).isSome = true)
    (hfree : t.freeList = s.freeList) (hnext : t.nextId = s.nextId) : t.Reserving ids :=
  Sound.of_keys h hkeys (congrArg (ids ++ ·) hfree) hnext

/-- The id an allocation returns is reserved from then on. -/
theorem Reserving.alloc (h : s.Reserving ids) (hroom : s.nextId < maxTxId) :
    s.allocId.2.Reserving (s.allocId.1 :: ids) := by
  unfold allocId
  split
  · rename_i id rest hfree
    -- the oldest free id changes sides
    have hperm : id :: ids ++ rest ~ ids ++ s.freeList := by
      rw [hfree]
      exact List.perm_middle.symm
    exact ⟨fun id hkey hmem => h.disjoint id hkey (hperm.mem_iff.mp hmem),
      hperm.nodup_iff.mpr h.nodup, h.keyBelow,
      fun id hmem => h.freeBelow id (hperm.mem_iff.mp hmem)⟩
  · rename_i hfree
    -- a fresh id, above every key and every free id
    have hnext : s.nextId < s.nextId + 1 := lt_add_one_of_lt_max hroom
    refine ⟨fun id hkey hmem => ?_, ?_, fun id hkey => ?_, fun id hmem => ?_⟩
    · rcases List.mem_cons.mp hmem with rfl | hmem
      · exact UInt64.lt_irrefl _ (h.keyBelow _ hkey)
      · exact h.disjoint id hkey hmem
    · exact List.nodup_cons.mpr ⟨fun hmem => UInt64.lt_irrefl _ (h.freeBelow _ hmem), h.nodup⟩
    · exact UInt64.lt_trans (h.keyBelow id hkey) hnext
    · rcases List.mem_cons.mp hmem with rfl | hmem
      · exact hnext
      · exact UInt64.lt_trans (h.freeBelow id hmem) hnext

section Persistent
variable [Bincode ρ]

/-- An insert turns a reserved id into a key. -/
theorem Reserving.insertWithId {id : UInt64} (h : s.Reserving (id :: ids)) (r : ρ) :
    (s.insertWithId id r).Reserving ids := by
  have hfree : (s.insertWithId id r).freeList = s.freeList := by simp [RecordStore.insertWithId]
  have hnext : (s.insertWithId id r).nextId = s.nextId := by simp [RecordStore.insertWithId]
  obtain ⟨hnot, hnodup⟩ := List.nodup_cons.mp h.nodup
  have hkey : ∀ id', ((s.insertWithId id r).records.get id').isSome = true →
      id' = id ∨ (s.records.get id').isSome = true := by
    intro id' hk
    rw [insertWithId_records, FiniteMap.get_alter] at hk
    split at hk
    · exact Or.inl (by assumption)
    · exact Or.inr hk
  refine ⟨fun id' hk hmem => ?_, ?_, fun id' hk => ?_, fun id' hmem => ?_⟩
  · have hmem' : id' ∈ ids ++ s.freeList := by rw [← hfree]; exact hmem
    rcases hkey id' hk with rfl | hk
    · exact hnot hmem'
    · exact h.disjoint id' hk (List.mem_cons_of_mem id hmem')
  · show (ids ++ (s.insertWithId id r).freeList).Nodup
    rw [hfree]
    exact hnodup
  · show id' < (s.insertWithId id r).nextId
    rw [hnext]
    rcases hkey id' hk with rfl | hk
    · exact h.freeBelow id' List.mem_cons_self
    · exact h.keyBelow id' hk
  · show id' < (s.insertWithId id r).nextId
    rw [hnext]
    have hmem' : id' ∈ ids ++ s.freeList := by rw [← hfree]; exact hmem
    exact h.freeBelow id' (List.mem_cons_of_mem id hmem')

theorem Reserving.modify (h : s.Reserving ids) (id : UInt64) (f : ρ → ρ) :
    (s.modify id f).1.Reserving ids :=
  h.of_keys (fun _ => isSome_of_modify) (modify_freeList s id f) (modify_nextId s id f)

end Persistent
end RecordStore

/-! ## The buffers -/

/-- The node a write inserts. -/
def StoreWrite.newNode? : StoreWrite → Option NodeId
  | .insertNode id _ _ => some id
  | _ => none

/-- The edge a write inserts. -/
def StoreWrite.newEdge? : StoreWrite → Option EdgeId
  | .insertEdge id _ _ _ _ => some id
  | _ => none

theorem Transaction.writes_newNode (tx : Transaction) :
    tx.writes.filterMap StoreWrite.newNode? = tx.nodeInserts.map (·.1) := by
  simp [Transaction.writes, List.filterMap_append, List.filterMap_map, Function.comp_def,
    StoreWrite.newNode?]

theorem Transaction.writes_newEdge (tx : Transaction) :
    tx.writes.filterMap StoreWrite.newEdge? = tx.edgeInserts.map (·.1) := by
  simp [Transaction.writes, List.filterMap_append, List.filterMap_map, Function.comp_def,
    StoreWrite.newEdge?]

namespace Clients

/-- The ids of inserts that are buffered or remain to be done. -/
def reserved (new? : StoreWrite → Option UInt64) (s : Clients) : List UInt64 :=
  s.writers.flatMap (fun tx => tx.writes.filterMap new?) ++
    s.commits.flatMap fun c => c.remaining.filterMap new?

theorem filterMap_cons_toList {α β : Type} (f : α → Option β) (a : α) (l : List α) :
    (a :: l).filterMap f = (f a).toList ++ l.filterMap f := by
  rw [List.filterMap_cons]
  cases f a <;> rfl

/-- In both stores the ids of the inserts to come are reserved. -/
structure Reserved (s : Clients) : Prop where
  nodes : s.db.nodes.Reserving (s.reserved StoreWrite.newNode?)
  edges : RecordStore.Reserving s.db.edges (s.reserved StoreWrite.newEdge?)

/-- Fewer than `2 ^ 64 - 1` ids are allocated. -/
def HasRoom (s : Clients) : ClientStep → Prop
  | .call _ (.createNode _ _) => s.db.nodes.nextId < maxTxId
  | .call _ (.createEdge _ _ _ _) => s.db.edges.nextId < maxTxId
  | _ => True

theorem Reserved.start {db : Database} (hn : db.nodes.Sound) (he : RecordStore.Sound db.edges) :
    (Clients.start db).Reserved := ⟨hn, he⟩

/-! ### What a step does to the reserved ids -/

variable {s : Clients} {i : Nat}

/-- A buffer that grows. -/
theorem reserved_set {tx tx' : Transaction} {new? : StoreWrite → Option UInt64}
    {ids : List UInt64} (hi : s.writers[i]? = some tx)
    (hids : tx'.writes.filterMap new? = tx.writes.filterMap new? ++ ids) (db : Database) :
    ids ++ s.reserved new? ~
      ({ s with db, writers := s.writers.set i tx' } : Clients).reserved new? := by
  have hold := flatMap_perm (fun tx => tx.writes.filterMap new?) hi
  have hnew := flatMap_set_perm (fun tx => tx.writes.filterMap new?) tx' hi
  rw [List.perm_iff_count] at hold hnew ⊢
  intro a
  have ho := hold a
  have hn := hnew a
  rw [hids] at hn
  simp only [reserved, List.count_append] at ho hn ⊢
  omega

/-- A turn moves the buffer from one list to the other. -/
theorem reserved_turn {tx : Transaction} {new? : StoreWrite → Option UInt64}
    (hi : s.writers[i]? = some tx) (db : Database) :
    s.reserved new? ~ ({ s with
      db
      writers := s.writers.eraseIdx i
      commits := s.commits ++ [Commit.start { tx with committed := true }] } : Clients).reserved
        new? := by
  have hold := flatMap_perm (fun tx => tx.writes.filterMap new?) hi
  have hstart : ([Commit.start { tx with committed := true }].flatMap
      fun c => c.remaining.filterMap new?) = tx.writes.filterMap new? :=
    List.append_nil _
  rw [List.perm_iff_count] at hold ⊢
  intro a
  have ho := hold a
  simp only [reserved, List.flatMap_append, hstart, List.count_append] at ho ⊢
  omega

/-- A rollback forgets its buffer. -/
theorem reserved_rollback {tx : Transaction} {new? : StoreWrite → Option UInt64}
    (hi : s.writers[i]? = some tx) (db : Database) :
    s.reserved new? ~ tx.writes.filterMap new? ++
      ({ s with db, writers := s.writers.eraseIdx i } : Clients).reserved new? := by
  have hold := flatMap_perm (fun tx => tx.writes.filterMap new?) hi
  rw [List.perm_iff_count] at hold ⊢
  intro a
  have ho := hold a
  simp only [reserved, List.count_append] at ho ⊢
  omega

/-- A write is no longer to come. -/
theorem reserved_write {c c' : Commit} {w : StoreWrite} {new? : StoreWrite → Option UInt64}
    (hi : s.commits[i]? = some c) (hnext : c.next = some (w, c')) (db : Database) :
    s.reserved new? ~ (new? w).toList ++
      ({ s with db, commits := s.commits.set i c' } : Clients).reserved new? := by
  have hold := flatMap_perm (fun c => c.remaining.filterMap new?) hi
  have hnew := flatMap_set_perm (fun c => c.remaining.filterMap new?) c' hi
  have hrem : c.remaining.filterMap new? = (new? w).toList ++ c'.remaining.filterMap new? := by
    rw [(Commit.next_spec hnext).2.2, filterMap_cons_toList]
  rw [List.perm_iff_count] at hold hnew ⊢
  intro a
  have ho := hold a
  have hn := hnew a
  rw [hrem] at ho
  simp only [reserved, List.count_append] at ho hn ⊢
  omega

section Persistent
variable [Bincode Node] [Bincode Edge] [Bincode (Option Value)]

omit [Bincode Node] [Bincode Edge] [Bincode (Option Value)] in
/-- A call reserves what it allocates. -/
theorem apply_reserving (tx : Transaction) {c : TxCall} (hroom : s.HasRoom (.call i c)) :
    (∃ ids, (TxCall.apply (tx, s.db) c).1.writes.filterMap StoreWrite.newNode?
        = tx.writes.filterMap StoreWrite.newNode? ++ ids ∧
      ∀ pending, s.db.nodes.Reserving pending →
        (TxCall.apply (tx, s.db) c).2.nodes.Reserving (ids ++ pending)) ∧
    (∃ ids, (TxCall.apply (tx, s.db) c).1.writes.filterMap StoreWrite.newEdge?
        = tx.writes.filterMap StoreWrite.newEdge? ++ ids ∧
      ∀ pending, RecordStore.Reserving s.db.edges pending →
        RecordStore.Reserving (TxCall.apply (tx, s.db) c).2.edges (ids ++ pending)) := by
  simp only [Transaction.writes_newNode, Transaction.writes_newEdge]
  cases c with
  | createNode labels propsRow =>
    exact ⟨⟨[s.db.nodes.allocId.1], List.map_append, fun _ h => h.alloc hroom⟩,
      [], (List.append_nil _).symm, fun _ h => h⟩
  | createEdge src dst etype propsRow =>
    exact ⟨⟨[], (List.append_nil _).symm, fun _ h => h⟩,
      [RecordStore.allocId s.db.edges |>.1], List.map_append,
      fun _ h => RecordStore.Reserving.alloc h hroom⟩
  | updateNodeLabels id labels =>
    exact ⟨⟨[], (List.append_nil _).symm, fun _ h => h⟩, [], (List.append_nil _).symm, fun _ h => h⟩
  | deleteNode id =>
    exact ⟨⟨[], (List.append_nil _).symm, fun _ h => h⟩, [], (List.append_nil _).symm, fun _ h => h⟩
  | deleteEdge id =>
    exact ⟨⟨[], (List.append_nil _).symm, fun _ h => h⟩, [], (List.append_nil _).symm, fun _ h => h⟩
  | setProp label prop row value =>
    exact ⟨⟨[], (List.append_nil _).symm, fun _ h => h⟩, [], (List.append_nil _).symm, fun _ h => h⟩

/-- A write uses up what was reserved for it. -/
theorem perform_reserving (db : Database) (txId : TxId) (w : StoreWrite) :
    (∀ ids, db.nodes.Reserving ((StoreWrite.newNode? w).toList ++ ids) →
      (db.perform txId w).nodes.Reserving ids) ∧
    (∀ ids, RecordStore.Reserving db.edges ((StoreWrite.newEdge? w).toList ++ ids) →
      RecordStore.Reserving (db.perform txId w).edges ids) := by
  cases w with
  | insertNode id labels propsRow => exact ⟨fun _ h => h.insertWithId _, fun _ h => h⟩
  | updateLabels id labels => exact ⟨fun _ h => h.modify id _, fun _ h => h⟩
  | deleteNode id => exact ⟨fun _ h => h.modify id _, fun _ h => h⟩
  | insertEdge id src dst etype propsRow =>
    exact ⟨fun _ h => h, fun _ h => RecordStore.Reserving.insertWithId h _⟩
  | deleteEdge id => exact ⟨fun _ h => h, fun _ h => RecordStore.Reserving.modify h id _⟩
  | insertProp label prop row value => exact ⟨fun _ h => h, fun _ h => h⟩

/-- **The ids of inserts to come stay reserved.** -/
theorem Reserved.step {s' : Clients} {a : ClientStep} (h : s.Reserved) (hg : s.HasRoom a)
    (hs : s.step a = some s') : s'.Reserved := by
  cases a with
  | beginRead =>
    simp only [Clients.step, Option.some.injEq] at hs
    subst hs
    exact ⟨h.nodes, h.edges⟩
  | beginWrite =>
    simp only [Clients.step, Option.some.injEq] at hs
    subst hs
    have hnew : ∀ new?, ({ s with
        db := s.db.beginWrite.2
        writers := s.writers ++ [s.db.beginWrite.1] } : Clients).reserved new?
          = s.reserved new? := by
      intro new?
      rw [reserved, List.flatMap_append]
      exact congrArg (· ++ _) (List.append_nil _)
    exact ⟨(hnew _).symm ▸ h.nodes, (hnew _).symm ▸ h.edges⟩
  | call i c =>
    obtain ⟨tx, hi, rfl⟩ := step_call_inv hs
    obtain ⟨⟨ns, hns, hnodes⟩, es, hes, hedges⟩ := apply_reserving tx hg
    exact ⟨(hnodes _ h.nodes).perm (reserved_set hi hns _),
      (hedges _ h.edges).perm (reserved_set hi hes _)⟩
  | turn i =>
    obtain ⟨tx, m, hi, -, rfl⟩ := step_turn_inv hs
    exact ⟨h.nodes.perm (reserved_turn hi _), h.edges.perm (reserved_turn hi _)⟩
  | write i =>
    obtain ⟨c, w, c', hi, hnext, rfl⟩ := step_write_inv hs
    obtain ⟨hnodes, hedges⟩ := perform_reserving s.db c.txId w
    exact ⟨hnodes _ (h.nodes.perm (reserved_write hi hnext _)),
      hedges _ (h.edges.perm (reserved_write hi hnext _))⟩
  | rollback i =>
    obtain ⟨tx, m, hi, -, rfl⟩ := step_rollback_inv hs
    exact ⟨(h.nodes.perm (reserved_rollback hi _)).drop,
      (h.edges.perm (reserved_rollback hi _)).drop⟩

end Persistent

end Clients
end LightGraph
