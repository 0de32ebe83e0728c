import LightGraph.Lib.Threads
import LightGraph.Storage.EdgeStore
import LightGraph.Storage.NodeStore

/-!
# Stores under concurrency

The operations of a store, cut at every point where another thread can come in between: one
step is one access to the free list, to `next_id` or to an entry of the map, or one send to the
WAL. An access through `get_mut` (or `get`) holds the entry's lock to the end of its block, so a
send made in there is part of the step. `free_count` is counted along with the queue.

The two stores run one machine. What a call does first is its `Call`; what is particular to the
edge store, the loops along the chains, is given by an `Interface` as a step function on points
of its own (`κ`). The scan of `compact` looks at the entries in whatever order the map's shards
come, one lock after the other: its rounds are moves of their own, and the schedule says which
entry is next and when the iteration is over.
-/

set_option autoImplicit false

namespace LightGraph

open Lib

/-- Who called `hard_delete`. -/
inductive Deleter
  | caller
  /-- `compact`, with the ids it has yet to delete -/
  | compact (oldestActive : TxId) (todo : List UInt64)

/-- What a call comes to. -/
inductive Call (ρ κ : Type)
  | insert (make : UInt64 → ρ)
  | allocIdDirect
  | insertWithId (id : UInt64) (r : ρ)
  | modify (id : UInt64) (f : ρ → ρ)
  | hardDelete (id : UInt64)
  | compact (oldestActive : TxId)
  | edit (k : κ)

/-- Where a thread stands. Each point but the first is named for the access that comes next. -/
inductive Pc (ρ κ : Type)
  | idle
  | insertPop (make : UInt64 → ρ)
  | insertFetch (make : UInt64 → ρ)
  | insertPut (id : UInt64) (r : ρ)
  | insertSend (id : UInt64) (r : ρ)
  | allocPop
  | allocFetch
  | modify (id : UInt64) (f : ρ → ρ)
  | deleteSend (id : UInt64) (d : Deleter)
  | deleteRemove (id : UInt64) (d : Deleter)
  | deletePush (id : UInt64) (d : Deleter)
  /-- in the iteration of `compact`, with the ids collected so far -/
  | scan (oldestActive : TxId) (found : List UInt64)
  | edit (k : κ)

/-- One step of an edit, and the point behind it; `none` is the end of the call. -/
inductive EditStep (ρ κ : Type)
  /-- `get_mut` or `get`: what is done with the entry, or with there being none -/
  | access (id : UInt64) (absent : Option κ) (present : ρ → ρ × Option κ)
  /-- `get`, and `wal_insert` while the entry is locked -/
  | persist (id : UInt64) (next : Option κ)

/-- A store's calls. -/
structure Interface (ρ κ γ : Type) where
  body : γ → Call ρ κ
  /-- what `compact` collects -/
  dead : TxId → ρ → Bool
  edit : κ → EditStep ρ κ

/-- What the threads share: the store, and the ids that `alloc_id_direct` has returned and no
`insert_with_id` has been called with yet. -/
structure Shared (ρ : Type) where
  store : RecordStore ρ
  reserved : List UInt64

inductive Move (γ : Type)
  | call (c : γ)
  | step
  /-- the iteration comes to this entry -/
  | visit (id : UInt64)
  /-- the iteration is over -/
  | scanned

/-- The point a call begins at. -/
def Call.entry {ρ κ : Type} : Call ρ κ → Pc ρ κ
  | .insert make => .insertPop make
  | .allocIdDirect => .allocPop
  | .insertWithId id r => .insertPut id r
  | .modify id f => .modify id f
  | .hardDelete id => .deleteSend id .caller
  | .compact oldestActive => .scan oldestActive []
  | .edit k => .edit k

/-- Behind a hard delete: `compact` goes on to its next id. -/
def Deleter.next {ρ κ : Type} : Deleter → Pc ρ κ
  | .caller => .idle
  | .compact _ [] => .idle
  | .compact oldestActive (id :: todo) => .deleteSend id (.compact oldestActive todo)

/-- Behind a step of an edit. -/
def Pc.ofEdit {ρ κ : Type} : Option κ → Pc ρ κ
  | none => .idle
  | some k => .edit k

namespace Interface
variable {ρ κ γ : Type} [Bincode ρ]

/-- One step of one thread. -/
def exec (I : Interface ρ κ γ) (sh : Shared ρ) :
    Pc ρ κ → Move γ → Option (Shared ρ × Pc ρ κ)
  | .idle, .call c =>
    match I.body c with
    -- an id that is inserted is reserved no more
    | .insertWithId id r => some ({ sh with reserved := sh.reserved.erase id }, .insertPut id r)
    | body => some (sh, body.entry)
  | .insertPop make, .step =>
    match sh.store.freeList with
    | id :: freeList =>
      some ({ sh with store := { sh.store with freeList, freeCount := sh.store.freeCount - 1 } },
        .insertPut id (make id))
    | [] => some (sh, .insertFetch make)
  | .insertFetch make, .step =>
    some ({ sh with store := { sh.store with nextId := sh.store.nextId + 1 } },
      .insertPut sh.store.nextId (make sh.store.nextId))
  | .insertPut id r, .step =>
    some ({ sh with store := { sh.store with records := sh.store.records.put id r } },
      .insertSend id r)
  | .insertSend id r, .step => some ({ sh with store := sh.store.walInsert id r }, .idle)
  | .allocPop, .step =>
    match sh.store.freeList with
    | id :: freeList =>
      some ({ store := { sh.store with freeList, freeCount := sh.store.freeCount - 1 }
              reserved := id :: sh.reserved }, .idle)
    | [] => some (sh, .allocFetch)
  | .allocFetch, .step =>
    some ({ store := { sh.store with nextId := sh.store.nextId + 1 }
            reserved := sh.store.nextId :: sh.reserved }, .idle)
  | .modify id f, .step => some ({ sh with store := (sh.store.modify id f).1 }, .idle)
  | .deleteSend id d, .step =>
    some ({ sh with store := sh.store.walDelete id }, .deleteRemove id d)
  | .deleteRemove id d, .step =>
    match sh.store.records.get id with
    | some _ =>
      some ({ sh with store := { sh.store with records := sh.store.records.remove id } },
        .deletePush id d)
    | none => some (sh, d.next)
  | .deletePush id d, .step =>
    some ({ sh with store := { sh.store with
              freeList := sh.store.freeList ++ [id]
              freeCount := sh.store.freeCount + 1 } }, d.next)
  | .scan oldestActive found, .visit id =>
    match sh.store.records.get id with
    | some r =>
      some (sh, .scan oldestActive (if I.dead oldestActive r then found ++ [id] else found))
    | none => none
  | .scan oldestActive found, .scanned => some (sh, (Deleter.compact oldestActive found).next)
  | .edit k, .step =>
    match I.edit k with
    | .access id absent present =>
      match sh.store.records.get id with
      | none => some (sh, Pc.ofEdit absent)
      | some r =>
        let (r, next) := present r
        some ({ sh with store := { sh.store with records := sh.store.records.put id r } },
          Pc.ofEdit next)
    | .persist id next =>
      match sh.store.records.get id with
      | none => some (sh, Pc.ofEdit next)
      | some r => some ({ sh with store := sh.store.walInsert id r }, Pc.ofEdit next)
  | _, _ => none

/-- Any number of threads on one store. -/
abbrev step (I : Interface ρ κ γ) :
    Threads (Shared ρ) (Pc ρ κ) → Nat × Move γ → Option (Threads (Shared ρ) (Pc ρ κ)) :=
  Threads.step I.exec

end Interface

/-- The threads before their first call. -/
def Interface.start {ρ κ : Type} (store : RecordStore ρ) (threads : Nat) :
    Threads (Shared ρ) (Pc ρ κ) :=
  { shared := { store, reserved := [] }, threads := List.replicate threads .idle }

/-! ## What a step can do -/

namespace Interface
variable {ρ κ γ : Type} [Bincode ρ]

/-- Everything one step of one thread can be, with what it finds and what it leaves. -/
inductive Fires (I : Interface ρ κ γ) (sh : Shared ρ) :
    Pc ρ κ → Move γ → Shared ρ → Pc ρ κ → Prop
  | call {c : γ} (hbody : ∀ id r, I.body c ≠ .insertWithId id r) :
    I.Fires sh .idle (.call c) sh (I.body c).entry
  | insertWithId {c : γ} {id : UInt64} {r : ρ} (hbody : I.body c = .insertWithId id r) :
    I.Fires sh .idle (.call c) { sh with reserved := sh.reserved.erase id } (.insertPut id r)
  | insertPop {make : UInt64 → ρ} {id : UInt64} {freeList : List UInt64}
      (hfree : sh.store.freeList = id :: freeList) :
    I.Fires sh (.insertPop make) .step
      { sh with store := { sh.store with freeList, freeCount := sh.store.freeCount - 1 } }
      (.insertPut id (make id))
  | insertEmpty {make : UInt64 → ρ} (hfree : sh.store.freeList = []) :
    I.Fires sh (.insertPop make) .step sh (.insertFetch make)
  | insertFetch {make : UInt64 → ρ} :
    I.Fires sh (.insertFetch make) .step
      { sh with store := { sh.store with nextId := sh.store.nextId + 1 } }
      (.insertPut sh.store.nextId (make sh.store.nextId))
  | insertPut {id : UInt64} {r : ρ} :
    I.Fires sh (.insertPut id r) .step
      { sh with store := { sh.store with records := sh.store.records.put id r } }
      (.insertSend id r)
  | insertSend {id : UInt64} {r : ρ} :
    I.Fires sh (.insertSend id r) .step { sh with store := sh.store.walInsert id r } .idle
  | allocPop {id : UInt64} {freeList : List UInt64} (hfree : sh.store.freeList = id :: freeList) :
    I.Fires sh .allocPop .step
      { store := { sh.store with freeList, freeCount := sh.store.freeCount - 1 }
        reserved := id :: sh.reserved } .idle
  | allocEmpty (hfree : sh.store.freeList = []) : I.Fires sh .allocPop .step sh .allocFetch
  | allocFetch :
    I.Fires sh .allocFetch .step
      { store := { sh.store with nextId := sh.store.nextId + 1 }
        reserved := sh.store.nextId :: sh.reserved } .idle
  | modify {id : UInt64} {f : ρ → ρ} :
    I.Fires sh (.modify id f) .step { sh with store := (sh.store.modify id f).1 } .idle
  | deleteSend {id : UInt64} {d : Deleter} :
    I.Fires sh (.deleteSend id d) .step { sh with store := sh.store.walDelete id }
      (.deleteRemove id d)
  | deleteRemove {id : UInt64} {d : Deleter} {r : ρ} (hget : sh.store.records.get id = some r) :
    I.Fires sh (.deleteRemove id d) .step
      { sh with store := { sh.store with records := sh.store.records.remove id } }
      (.deletePush id d)
  | deleteAbsent {id : UInt64} {d : Deleter} (hget : sh.store.records.get id = none) :
    I.Fires sh (.deleteRemove id d) .step sh d.next
  | deletePush {id : UInt64} {d : Deleter} :
    I.Fires sh (.deletePush id d) .step
      { sh with store := { sh.store with
          freeList := sh.store.freeList ++ [id]
          freeCount := sh.store.freeCount + 1 } } d.next
  | visit {oldestActive : TxId} {found : List UInt64} {id : UInt64} {r : ρ}
      (hget : sh.store.records.get id = some r) :
    I.Fires sh (.scan oldestActive found) (.visit id) sh
      (.scan oldestActive (if I.dead oldestActive r then found ++ [id] else found))
  | scanned {oldestActive : TxId} {found : List UInt64} :
    I.Fires sh (.scan oldestActive found) .scanned sh (Deleter.compact oldestActive found).next
  | editAbsent {k : κ} {id : UInt64} {absent : Option κ} {present : ρ → ρ × Option κ}
      (hedit : I.edit k = .access id absent present) (hget : sh.store.records.get id = none) :
    I.Fires sh (.edit k) .step sh (Pc.ofEdit absent)
  | editPresent {k : κ} {id : UInt64} {absent : Option κ} {present : ρ → ρ × Option κ} {r : ρ}
      (hedit : I.edit k = .access id absent present) (hget : sh.store.records.get id = some r) :
    I.Fires sh (.edit k) .step
      { sh with store := { sh.store with records := sh.store.records.put id (present r).1 } }
      (Pc.ofEdit (present r).2)
  | persistAbsent {k : κ} {id : UInt64} {next : Option κ} (hedit : I.edit k = .persist id next)
      (hget : sh.store.records.get id = none) :
    I.Fires sh (.edit k) .step sh (Pc.ofEdit next)
  | persist {k : κ} {id : UInt64} {next : Option κ} {r : ρ} (hedit : I.edit k = .persist id next)
      (hget : sh.store.records.get id = some r) :
    I.Fires sh (.edit k) .step { sh with store := sh.store.walInsert id r } (Pc.ofEdit next)

theorem exec_fires {I : Interface ρ κ γ} {sh sh' : Shared ρ} {p p' : Pc ρ κ} {m : Move γ}
    (h : I.exec sh p m = some (sh', p')) : I.Fires sh p m sh' p' := by
  unfold exec at h
  split at h
  · -- `idle`
    split at h
    · rename_i id r hbody
      cases h
      exact .insertWithId hbody
    · rename_i hbody
      cases h
      exact .call hbody
  · -- `insertPop`
    split at h
    · rename_i hfree
      cases h
      exact .insertPop hfree
    · rename_i hfree
      cases h
      exact .insertEmpty hfree
  · cases h
    exact .insertFetch
  · cases h
    exact .insertPut
  · cases h
    exact .insertSend
  · -- `allocPop`
    split at h
    · rename_i hfree
      cases h
      exact .allocPop hfree
    · rename_i hfree
      cases h
      exact .allocEmpty hfree
  · cases h
    exact .allocFetch
  · cases h
    exact .modify
  · cases h
    exact .deleteSend
  · -- `deleteRemove`
    split at h
    · rename_i hget
      cases h
      exact .deleteRemove hget
    · rename_i hget
      cases h
      exact .deleteAbsent hget
  · cases h
    exact .deletePush
  · -- `scan`
    split at h
    · rename_i hget
      cases h
      exact .visit hget
    · exact absurd h (by simp)
  · cases h
    exact .scanned
  · -- `edit`
    split at h
    · rename_i id absent present hedit
      split at h
      · rename_i hget
        cases h
        exact .editAbsent hedit hget
      · rename_i hget
        cases h
        exact .editPresent hedit hget
    · rename_i id next hedit
      split at h
      · rename_i hget
        cases h
        exact .persistAbsent hedit hget
      · rename_i hget
        cases h
        exact .persist hedit hget
  · exact absurd h (by simp)

end Interface

/-! ## The node store -/

/-- A call on a node store. -/
inductive NodeCall
  | op (o : NodeOp)
  | compact (oldestActive : TxId)

def NodeOp.body : NodeOp → Call Node Empty
  | .insertNode labels propsRow txId => .insert fun id => Node.new id labels propsRow txId
  | .allocIdDirect => .allocIdDirect
  | .insertWithId id labels propsRow txId => .insertWithId id (Node.new id labels propsRow txId)
  | .updateLabels id labels txId => .modify id fun node => { node with labels, createdTx := txId }
  | .updatePropsRow id propsRow => .modify id fun node => { node with propsRow }
  | .setFirstOut id edgeId => .modify id fun node => { node with firstOut := edgeId }
  | .setFirstIn id edgeId => .modify id fun node => { node with firstIn := edgeId }
  | .softDelete id txId => .modify id fun node => { node with deletedTx := txId }
  | .hardDelete id => .hardDelete id

def nodeThreads : Interface Node Empty NodeCall where
  body
    | .op o => o.body
    | .compact oldestActive => .compact oldestActive
  dead oldestActive node := node.deletedTx < oldestActive
  edit := Empty.elim

/-! ## The edge store -/

/-- Inside `link_into_chains` or `unlink_from_chains`. -/
inductive EdgeEdit
  | linkOut (newEdge srcFirstOut dstFirstIn : EdgeId)
  | linkIn (newEdge dstFirstIn : EdgeId)
  | unlinkGet (edgeId srcFirstOut dstFirstIn : EdgeId)
  /-- a round of one of the two loops: `edge` is the clone, `preds` the predecessors changed -/
  | seek (side : ChainSide) (edgeId : EdgeId) (edge : Edge) (cur dstFirstIn : EdgeId)
      (preds : List EdgeId)
  | persist (id : EdgeId) (rest : List EdgeId)

namespace EdgeEdit

/-- Persist the edges, one after the other. -/
def persistAll : List EdgeId → Option EdgeEdit
  | [] => none
  | id :: rest => some (.persist id rest)

/-- The head of the loop: `while cur != NULL_EDGE`, with what comes behind the loop. -/
def loop (side : ChainSide) (edgeId : EdgeId) (edge : Edge) (cur dstFirstIn : EdgeId)
    (preds : List EdgeId) (behind : Option EdgeEdit) : Option EdgeEdit :=
  if cur = nullEdge then behind else some (.seek side edgeId edge cur dstFirstIn preds)

/-- The second half of an unlink. -/
def unlinkIn (edgeId : EdgeId) (edge : Edge) (dstFirstIn : EdgeId) (preds : List EdgeId) :
    Option EdgeEdit :=
  if dstFirstIn = edgeId then persistAll preds
  else loop .incoming edgeId edge dstFirstIn dstFirstIn preds (persistAll preds)

/-- What comes behind a loop. -/
def behind (side : ChainSide) (edgeId : EdgeId) (edge : Edge) (dstFirstIn : EdgeId)
    (preds : List EdgeId) : Option EdgeEdit :=
  match side with
  | .outgoing => unlinkIn edgeId edge dstFirstIn preds
  | .incoming => persistAll preds

def unlinkOut (edgeId : EdgeId) (edge : Edge) (srcFirstOut dstFirstIn : EdgeId) :
    Option EdgeEdit :=
  if srcFirstOut = edgeId then unlinkIn edgeId edge dstFirstIn []
  else loop .outgoing edgeId edge srcFirstOut dstFirstIn [] (unlinkIn edgeId edge dstFirstIn [])

def step : EdgeEdit → EditStep Edge EdgeEdit
  | .linkOut newEdge srcFirstOut dstFirstIn =>
    .access newEdge (some (.linkIn newEdge dstFirstIn))
      fun e => ({ e with nextOut := srcFirstOut }, some (.linkIn newEdge dstFirstIn))
  | .linkIn newEdge dstFirstIn =>
    .access newEdge (some (.persist newEdge []))
      fun e => ({ e with nextIn := dstFirstIn }, some (.persist newEdge []))
  | .unlinkGet edgeId srcFirstOut dstFirstIn =>
    .access edgeId none fun edge => (edge, unlinkOut edgeId edge srcFirstOut dstFirstIn)
  | .seek side edgeId edge cur dstFirstIn preds =>
    .access cur (behind side edgeId edge dstFirstIn preds) fun e =>
      if side.next e = edgeId then
        (side.setNext (side.next edge) e, behind side edgeId edge dstFirstIn (preds ++ [cur]))
      else
        (e, loop side edgeId edge (side.next e) dstFirstIn preds
          (behind side edgeId edge dstFirstIn preds))
  | .persist id rest => .persist id (persistAll rest)

end EdgeEdit

def EdgeOp.body : EdgeOp → Call Edge EdgeEdit
  | .insertEdge src dst etype propsRow txId =>
    .insert fun id => Edge.new id src dst etype propsRow txId
  | .allocIdDirect => .allocIdDirect
  | .insertWithId id src dst etype propsRow txId =>
    .insertWithId id (Edge.new id src dst etype propsRow txId)
  | .linkIntoChains newEdge srcFirstOut dstFirstIn =>
    .edit (.linkOut newEdge srcFirstOut dstFirstIn)
  | .softDelete id txId => .modify id fun e => { e with deletedTx := txId }
  | .hardDelete id => .hardDelete id

/-- There is no compaction of edges. -/
def edgeThreads : Interface Edge EdgeEdit EdgeCall where
  body
    | .op o => o.body
    | .unlinkFromChains edgeId srcFirstOut dstFirstIn =>
      .edit (.unlinkGet edgeId srcFirstOut dstFirstIn)
  dead _ _ := false
  edit := EdgeEdit.step

/-! ## One thread, nobody else -/

/-- What a call does when nobody comes in between. -/
def Call.effect {ρ κ : Type} [Bincode ρ] (sh : Shared ρ) : Call ρ κ → Shared ρ
  | .insert make => { sh with store := (sh.store.insert make).2 }
  | .allocIdDirect =>
    { store := sh.store.allocId.2, reserved := sh.store.allocId.1 :: sh.reserved }
  | .insertWithId id r =>
    { store := sh.store.insertWithId id r, reserved := sh.reserved.erase id }
  | .modify id f => { sh with store := (sh.store.modify id f).1 }
  | .hardDelete id => { sh with store := (sh.store.hardDelete id).1 }
  | .compact _ => sh
  | .edit _ => sh

namespace Interface
variable {ρ κ γ : Type} [Bincode ρ] {I : Interface ρ κ γ}

/-- **The steps of a call** make up the operation. -/
theorem alone_call (sh : Shared ρ) (c : γ) (hcompact : ∀ o, I.body c ≠ .compact o)
    (hedit : ∀ k, I.body c ≠ .edit k) :
    ∃ moves, Threads.alone I.exec (sh, .idle) moves = some ((I.body c).effect sh, .idle) := by
  cases hbody : I.body c with
  | insert make =>
    cases hfree : sh.store.freeList with
    | nil =>
      refine ⟨[.call c, .step, .step, .step, .step], ?_⟩
      simp [Threads.alone, run, exec, hbody, Call.entry, hfree, Call.effect, RecordStore.insert,
        RecordStore.allocId, RecordStore.insertWithId]
    | cons id freeList =>
      refine ⟨[.call c, .step, .step, .step], ?_⟩
      simp [Threads.alone, run, exec, hbody, Call.entry, hfree, Call.effect, RecordStore.insert,
        RecordStore.allocId, RecordStore.insertWithId]
  | allocIdDirect =>
    cases hfree : sh.store.freeList with
    | nil =>
      refine ⟨[.call c, .step, .step], ?_⟩
      simp [Threads.alone, run, exec, hbody, Call.entry, hfree, Call.effect, RecordStore.allocId]
    | cons id freeList =>
      refine ⟨[.call c, .step], ?_⟩
      simp [Threads.alone, run, exec, hbody, Call.entry, hfree, Call.effect, RecordStore.allocId]
  | insertWithId id r =>
    refine ⟨[.call c, .step, .step], ?_⟩
    simp [Threads.alone, run, exec, hbody, Call.effect, RecordStore.insertWithId]
  | modify id f =>
    refine ⟨[.call c, .step], ?_⟩
    simp [Threads.alone, run, exec, hbody, Call.entry, Call.effect]
  | hardDelete id =>
    cases hget : sh.store.records.get id with
    | none =>
      refine ⟨[.call c, .step, .step], ?_⟩
      simp [Threads.alone, run, exec, hbody, Call.entry, Call.effect, RecordStore.hardDelete, hget,
        Deleter.next]
    | some r =>
      refine ⟨[.call c, .step, .step, .step], ?_⟩
      simp [Threads.alone, run, exec, hbody, Call.entry, Call.effect, RecordStore.hardDelete, hget,
        Deleter.next]
  | compact o => exact absurd hbody (hcompact o)
  | edit k => exact absurd hbody (hedit k)

end Interface

/-- The node store's calls are its operations. -/
theorem NodeStore.perform_effect [Bincode Node] (s : NodeStore) (reserved : List NodeId)
    (o : NodeOp) :
    (o.body.effect { store := s.toRecordStore, reserved }).store
      = (s.perform o).toRecordStore := by
  cases o <;> rfl

end LightGraph
