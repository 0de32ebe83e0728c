import LightGraph.Storage.Bincode
import LightGraph.Storage.StoreThreads

/-!
# Who owns an id

An id below `next_id` is a key of the map, or free, or reserved by an allocation whose insert is
still to come, or on its way from the map to the free list. `places` counts where it is, and the
count is one at all times, whatever the threads do in between each other's steps.

The count comes from a balance: the part of it that one thread's step can touch (`share`) changes
only when `next_id` moves, and then by the one id that is new. The only step that could upset it
is an insert that finds a record under its id; it finds none, because the id it holds is in one
place already.
-/

set_option autoImplicit false

namespace LightGraph

open Lib

/-! ## The places of an id -/

namespace Pc
variable {ρ κ : Type}

/-- The id a thread has allocated, or taken from the reserved ones, and not inserted yet. -/
def reserving : Pc ρ κ → List UInt64
  | .insertPut id _ => [id]
  | _ => []

/-- The id a hard delete has removed and not pushed yet. -/
def freeing : Pc ρ κ → List UInt64
  | .deletePush id _ => [id]
  | _ => []

end Pc

section Places
variable {ρ κ : Type}

/-- How often an id is a key. -/
def RecordStore.keyCount (s : RecordStore ρ) (id : UInt64) : Nat :=
  if (s.records.get id).isSome then 1 else 0

/-- The ids that allocations have returned and no insert has put into the map. -/
def reservedIds (s : Threads (Shared ρ) (Pc ρ κ)) : List UInt64 :=
  s.shared.reserved ++ s.threads.flatMap Pc.reserving

/-- The places an id is in: the map, the free list, the reserved ids, the ids being freed. -/
def places (s : Threads (Shared ρ) (Pc ρ κ)) (id : UInt64) : Nat :=
  s.shared.store.keyCount id + s.shared.store.freeList.count id + (reservedIds s).count id
    + (s.threads.flatMap Pc.freeing).count id

/-- No reserved id is inserted twice, and fewer than `2 ^ 64` ids are taken from the counter. -/
def Interface.Allowed {γ : Type} (I : Interface ρ κ γ) (s : Threads (Shared ρ) (Pc ρ κ)) :
    Nat × Move γ → Prop
  | (_, .call c) => ∀ id r, I.body c = .insertWithId id r → id ∈ s.shared.reserved
  | (i, .step) =>
    (∃ make, s.threads[i]? = some (.insertFetch make)) ∨ s.threads[i]? = some .allocFetch →
      s.shared.store.nextId < maxTxId
  | _ => True

/-- What is promised of the ids in one state of the store and its threads. -/
structure IdsSafe [Bincode ρ] {γ : Type} (I : Interface ρ κ γ)
    (s : Threads (Shared ρ) (Pc ρ κ)) : Prop where
  /-- an id below `next_id` is in exactly one place -/
  below : ∀ id, id < s.shared.store.nextId → places s id = 1
  /-- and no other id is in any -/
  above : ∀ id, s.shared.store.nextId ≤ id → places s id = 0
  /-- an id that the next step reserves is neither live nor reserved -/
  alloc : ∀ a t id, I.Allowed s a → I.step s a = some t →
    (reservedIds s).count id < (reservedIds t).count id →
    s.shared.store.records.get id = none ∧ id ∉ reservedIds s
  /-- the next insert overwrites nothing -/
  insert : ∀ id r, .insertPut id r ∈ s.threads → s.shared.store.records.get id = none

end Places

/-! ## The balance of one step -/

section Balance
variable {ρ κ γ : Type} {sh sh' : Shared ρ} {p p' : Pc ρ κ} {m : Move γ} {id : UInt64}

/-- The places that belong to the store and to one thread. -/
def share (sh : Shared ρ) (p : Pc ρ κ) (id : UInt64) : Nat :=
  sh.store.keyCount id + sh.store.freeList.count id + (sh.reserved.count id + p.reserving.count id)
    + p.freeing.count id

/-- How often `next_id` has handed an id out. -/
def handedOut (sh : Shared ρ) (id : UInt64) : Nat := if id < sh.store.nextId then 1 else 0

theorem count_head (a : UInt64) (l : List UInt64) (b : UInt64) :
    (a :: l).count b = [a].count b + l.count b := by
  rw [← List.count_append, List.singleton_append]

theorem handedOut_fetch (hroom : sh.store.nextId < maxTxId) (id : UInt64) :
    (if id < sh.store.nextId + 1 then 1 else 0) = handedOut sh id + [sh.store.nextId].count id := by
  by_cases heq : sh.store.nextId = id
  · subst heq
    simp [handedOut, lt_add_one_of_lt_max hroom]
  · have hiff : id < sh.store.nextId + 1 ↔ id < sh.store.nextId := by
      have hne : sh.store.nextId.toNat ≠ id.toNat := fun h => heq (UInt64.toNat_inj.mp h)
      simp only [UInt64.lt_iff_toNat_lt, toNat_add_one_of_lt_max hroom]
      omega
    simp [handedOut, hiff, heq]

@[simp] theorem Deleter.next_reserving (d : Deleter) :
    (d.next : Pc ρ κ).reserving = [] := by
  cases d with
  | caller => rfl
  | compact oldestActive todo => cases todo <;> rfl

@[simp] theorem Deleter.next_freeing (d : Deleter) : (d.next : Pc ρ κ).freeing = [] := by
  cases d with
  | caller => rfl
  | compact oldestActive todo => cases todo <;> rfl

@[simp] theorem Pc.ofEdit_reserving (k : Option κ) : (Pc.ofEdit k : Pc ρ κ).reserving = [] := by
  cases k <;> rfl

@[simp] theorem Pc.ofEdit_freeing (k : Option κ) : (Pc.ofEdit k : Pc ρ κ).freeing = [] := by
  cases k <;> rfl

@[simp] theorem Call.entry_freeing (c : Call ρ κ) : c.entry.freeing = [] := by
  cases c <;> rfl

theorem Call.entry_reserving {c : Call ρ κ} (h : ∀ id r, c ≠ .insertWithId id r) :
    c.entry.reserving = [] := by
  cases c with
  | insertWithId id r => exact absurd rfl (h id r)
  | _ => rfl

/-- A thread that holds no id has no share of its own. -/
theorem share_of_none (hr : p.reserving = []) (hf : p.freeing = []) (id : UInt64) :
    share sh p id
      = sh.store.keyCount id + sh.store.freeList.count id + sh.reserved.count id := by
  rw [share, hr, hf, List.count_nil, Nat.add_zero, Nat.add_zero]

/-- A change in place makes and loses no key. -/
theorem RecordStore.keyCount_modify [Bincode ρ] (s : RecordStore ρ) (id id' : UInt64) (f : ρ → ρ) :
    (s.modify id f).1.keyCount id' = s.keyCount id' := by
  rw [keyCount, modify_records, FiniteMap.get_alter]
  by_cases heq : id' = id
  · subst heq
    simp [keyCount]
  · simp [keyCount, heq]

/-- **The balance of a step**: an id gains a place when it is handed out, and not otherwise. -/
theorem Interface.Fires.balance [Bincode ρ] {I : Interface ρ κ γ} (h : I.Fires sh p m sh' p')
    (hreserved : ∀ c id r, m = .call c → I.body c = .insertWithId id r → id ∈ sh.reserved)
    (hroom : (∃ make, p = .insertFetch make) ∨ p = .allocFetch → sh.store.nextId < maxTxId)
    (habsent : ∀ id r, p = .insertPut id r → sh.store.records.get id = none) (id : UInt64) :
    share sh' p' id + handedOut sh id = share sh p id + handedOut sh' id := by
  cases h with
  | call hbody =>
    rw [share_of_none (Call.entry_reserving hbody) (Call.entry_freeing _), share_of_none rfl rfl]
  | @insertWithId c id' r hbody =>
    have hmem := hreserved c id' r rfl hbody
    have hcount := List.perm_iff_count.mp (List.perm_cons_erase hmem) id
    rw [count_head] at hcount
    simp only [share, Pc.reserving, Pc.freeing, handedOut, List.count_nil]
    omega
  | @insertPop make id' freeList hfree =>
    rw [share, share, hfree, count_head id' freeList]
    simp only [RecordStore.keyCount, Pc.reserving, Pc.freeing, handedOut, List.count_nil]
    omega
  | insertEmpty hfree => rfl
  | insertFetch =>
    have hone := handedOut_fetch (hroom (Or.inl ⟨_, rfl⟩)) id
    simp only [share, handedOut, RecordStore.keyCount, Pc.reserving, Pc.freeing,
      List.count_nil] at hone ⊢
    omega
  | @insertPut id' r =>
    have hnone := habsent id' r rfl
    simp only [share, handedOut, RecordStore.keyCount, Pc.reserving, Pc.freeing,
      FiniteMap.get_put]
    by_cases heq : id = id'
    · subst heq
      simp only [hnone, if_pos, Option.isSome_some, Option.isSome_none, Bool.false_eq_true,
        if_false, List.count_singleton_self, List.count_nil]
      omega
    · simp [heq, Ne.symm heq]
  | insertSend =>
    rw [share_of_none rfl rfl, share_of_none rfl rfl]
    simp [handedOut, RecordStore.keyCount]
  | @allocPop id' freeList hfree =>
    have hreserve := count_head id' sh.reserved id
    rw [share_of_none rfl rfl, share_of_none rfl rfl, hfree, count_head id' freeList]
    simp only [RecordStore.keyCount, handedOut] at hreserve ⊢
    omega
  | allocEmpty hfree => rfl
  | allocFetch =>
    have hone := handedOut_fetch (hroom (Or.inr rfl)) id
    have hreserve := count_head sh.store.nextId sh.reserved id
    rw [share_of_none rfl rfl, share_of_none rfl rfl]
    simp only [handedOut, RecordStore.keyCount] at hone hreserve ⊢
    omega
  | modify =>
    rw [share_of_none rfl rfl, share_of_none rfl rfl]
    simp [handedOut, RecordStore.keyCount_modify]
  | deleteSend =>
    rw [share_of_none rfl rfl, share_of_none rfl rfl]
    simp [handedOut, RecordStore.keyCount]
  | @deleteRemove id' d r hget =>
    simp only [share, handedOut, RecordStore.keyCount, Pc.reserving, Pc.freeing,
      FiniteMap.get_remove]
    by_cases heq : id = id'
    · subst heq
      simp only [hget, if_pos, Option.isSome_some, Option.isSome_none, Bool.false_eq_true,
        if_false, List.count_singleton_self, List.count_nil]
      omega
    · simp [heq, Ne.symm heq]
  | deleteAbsent hget =>
    rw [share_of_none (Deleter.next_reserving _) (Deleter.next_freeing _), share_of_none rfl rfl]
  | deletePush =>
    rw [share_of_none (Deleter.next_reserving _) (Deleter.next_freeing _)]
    simp only [share, handedOut, RecordStore.keyCount, Pc.reserving, Pc.freeing,
      List.count_append, List.count_nil]
    omega
  | visit hget => rfl
  | scanned =>
    rw [share_of_none (Deleter.next_reserving _) (Deleter.next_freeing _), share_of_none rfl rfl]
  | editAbsent hedit hget =>
    rw [share_of_none (Pc.ofEdit_reserving _) (Pc.ofEdit_freeing _), share_of_none rfl rfl]
  | @editPresent k id' absent present r hedit hget =>
    rw [share_of_none (Pc.ofEdit_reserving _) (Pc.ofEdit_freeing _), share_of_none rfl rfl]
    simp only [handedOut, RecordStore.keyCount, FiniteMap.get_put]
    by_cases heq : id = id'
    · subst heq
      simp [hget]
    · simp [heq]
  | persistAbsent hedit hget =>
    rw [share_of_none (Pc.ofEdit_reserving _) (Pc.ofEdit_freeing _), share_of_none rfl rfl]
  | persist hedit hget =>
    rw [share_of_none (Pc.ofEdit_reserving _) (Pc.ofEdit_freeing _), share_of_none rfl rfl]
    simp [handedOut, RecordStore.keyCount]

/-- What a step reserves comes from the free list or from the counter. -/
theorem Interface.Fires.reserves [Bincode ρ] {I : Interface ρ κ γ} (h : I.Fires sh p m sh' p')
    (hreserved : ∀ c id r, m = .call c → I.body c = .insertWithId id r → id ∈ sh.reserved)
    {id : UInt64} (hmore : sh.reserved.count id + p.reserving.count id
      < sh'.reserved.count id + p'.reserving.count id) :
    id ∈ sh.store.freeList ∨ id = sh.store.nextId := by
  cases h with
  | call hbody =>
    rw [Call.entry_reserving hbody] at hmore
    exact absurd hmore (Nat.lt_irrefl _)
  | @insertWithId c id' r hbody =>
    have hmem := hreserved c id' r rfl hbody
    have hcount := List.perm_iff_count.mp (List.perm_cons_erase hmem) id
    rw [count_head] at hcount
    simp only [Pc.reserving, List.count_nil] at hmore
    omega
  | @insertPop make id' freeList hfree =>
    simp only [Pc.reserving, List.count_nil] at hmore
    have hid : id ∈ [id'] := List.count_pos_iff.mp (by omega)
    exact Or.inl (hfree ▸ List.mem_singleton.mp hid ▸ List.mem_cons_self)
  | insertFetch =>
    simp only [Pc.reserving, List.count_nil] at hmore
    have hid : id ∈ [sh.store.nextId] := List.count_pos_iff.mp (by omega)
    exact Or.inr (List.mem_singleton.mp hid)
  | @allocPop id' freeList hfree =>
    simp only [Pc.reserving, List.count_nil, count_head id' sh.reserved] at hmore
    have hid : id ∈ [id'] := List.count_pos_iff.mp (by omega)
    exact Or.inl (hfree ▸ List.mem_singleton.mp hid ▸ List.mem_cons_self)
  | allocFetch =>
    simp only [Pc.reserving, List.count_nil, count_head sh.store.nextId sh.reserved] at hmore
    have hid : id ∈ [sh.store.nextId] := List.count_pos_iff.mp (by omega)
    exact Or.inr (List.mem_singleton.mp hid)
  | insertPut =>
    simp only [Pc.reserving, List.count_nil] at hmore
    omega
  | deleteAbsent hget | deletePush | scanned =>
    rw [Deleter.next_reserving] at hmore
    exact absurd hmore (Nat.lt_irrefl _)
  | editAbsent hedit hget | editPresent hedit hget | persistAbsent hedit hget
  | persist hedit hget =>
    rw [Pc.ofEdit_reserving] at hmore
    exact absurd hmore (Nat.lt_irrefl _)
  | insertEmpty hfree | insertSend | allocEmpty hfree | modify | deleteSend | deleteRemove hget
  | visit hget => exact absurd hmore (Nat.lt_irrefl _)

end Balance

/-! ## Any number of threads -/

section Run
variable {ρ κ γ : Type} {I : Interface ρ κ γ} {s t : Threads (Shared ρ) (Pc ρ κ)}
  {a : Nat × Move γ}

/-- Every id that has been handed out is in one place. -/
def OnePlace (s : Threads (Shared ρ) (Pc ρ κ)) : Prop :=
  ∀ id, places s id = handedOut s.shared id

theorem OnePlace.start (wal : Option WalLog) (n : Nat) :
    OnePlace (Interface.start { RecordStore.new with wal } n : Threads (Shared ρ) (Pc ρ κ)) := by
  intro id
  have hidle : ∀ f : Pc ρ κ → List UInt64, f .idle = [] →
      (List.replicate n (.idle : Pc ρ κ)).flatMap f = [] := by
    intro f hf
    rw [List.flatMap_eq_nil_iff]
    intro p hp
    rw [List.eq_of_mem_replicate hp, hf]
  simp [places, handedOut, reservedIds, RecordStore.keyCount, Interface.start, RecordStore.new,
    hidle Pc.reserving rfl, hidle Pc.freeing rfl]

theorem OnePlace.le_one (h : OnePlace s) (id : UInt64) : places s id ≤ 1 := by
  rw [h id, handedOut]
  split <;> omega

theorem key_none_of_keyCount {r : RecordStore ρ} {id : UInt64} (h : r.keyCount id = 0) :
    r.records.get id = none := by
  cases hget : r.records.get id with
  | none => rfl
  | some _ => simp [RecordStore.keyCount, hget] at h

/-- What is reserved or free is no key. -/
theorem OnePlace.absent (h : OnePlace s) {id : UInt64}
    (hid : id ∈ s.shared.store.freeList ∨ id ∈ reservedIds s) :
    s.shared.store.records.get id = none := by
  have hone := h.le_one id
  have hpos : 0 < s.shared.store.freeList.count id + (reservedIds s).count id := by
    rcases hid with hid | hid
    · have := List.count_pos_iff.mpr hid
      omega
    · have := List.count_pos_iff.mpr hid
      omega
  rw [places] at hone
  exact key_none_of_keyCount (by omega)

theorem mem_reservedIds {id : UInt64} {r : ρ} (h : .insertPut id r ∈ s.threads) :
    id ∈ reservedIds s :=
  List.mem_append_right _ (List.mem_flatMap.mpr ⟨_, h, List.mem_singleton_self id⟩)

section Persistent
variable [Bincode ρ]

/-- **One step keeps every id in one place.** -/
theorem OnePlace.step (h : OnePlace s) (hg : I.Allowed s a) (hs : I.step s a = some t) :
    OnePlace t := by
  obtain ⟨i, m⟩ := a
  obtain ⟨p, shared, p', hp, hexec, rfl⟩ := Threads.step_inv hs
  intro id
  have hbalance := (Interface.exec_fires hexec).balance
    (by rintro c id r rfl; exact hg id r)
    (by
      intro hfetch
      have hstep : m = .step := by
        rcases hfetch with ⟨make, rfl⟩ | rfl
        · cases Interface.exec_fires hexec
          rfl
        · cases Interface.exec_fires hexec
          rfl
      subst hstep
      refine hg ?_
      rcases hfetch with ⟨make, rfl⟩ | rfl
      · exact Or.inl ⟨make, hp⟩
      · exact Or.inr hp)
    (by rintro id r rfl; exact h.absent (Or.inr (mem_reservedIds (List.mem_of_getElem? hp)))) id
  have hreserving := Threads.count_step Pc.reserving hp p' id
  have hfreeing := Threads.count_step Pc.freeing hp p' id
  have hold := h id
  simp only [places, reservedIds, List.count_append, share] at hbalance hold ⊢
  omega

theorem OnePlace.idsSafe (h : OnePlace s) : IdsSafe I s := by
  refine ⟨fun id hlt => ?_, fun id hle => ?_, fun a t id hg hs hmore => ?_, fun id r hmem =>
    h.absent (Or.inr (mem_reservedIds hmem))⟩
  · rw [h id, handedOut, if_pos hlt]
  · rw [h id, handedOut, if_neg (UInt64.not_lt.mpr hle)]
  · obtain ⟨i, m⟩ := a
    obtain ⟨p, shared, p', hp, hexec, rfl⟩ := Threads.step_inv hs
    have hreserving := Threads.count_step Pc.reserving hp p' id
    simp only [reservedIds, List.count_append] at hmore
    have hsource := (Interface.exec_fires hexec).reserves
      (by rintro c id r rfl; exact hg id r)
      (show shared.reserved.count id + p'.reserving.count id > _ by omega)
    have hone := h.le_one id
    rcases hsource with hfree | rfl
    · -- in the free list, so nowhere else
      have hpos := List.count_pos_iff.mpr hfree
      rw [places] at hone
      exact ⟨h.absent (Or.inl hfree), List.count_eq_zero.mp (by omega)⟩
    · -- not handed out yet, so nowhere at all
      have hzero := h s.shared.store.nextId
      rw [handedOut, if_neg (UInt64.lt_irrefl _), places] at hzero
      exact ⟨key_none_of_keyCount (by omega), List.count_eq_zero.mp (by omega)⟩

theorem idsSafe_of_run {wal : Option WalLog} {n : Nat} {moves : List (Nat × Move γ)}
    (hg : Guarded I.step I.Allowed (Interface.start { RecordStore.new with wal } n) moves)
    (hs : run I.step (Interface.start { RecordStore.new with wal } n) moves = some s) :
    IdsSafe I s :=
  have hone : OnePlace s :=
    guarded_invariant (fun _ _ _ h hg hs => OnePlace.step h hg hs) (OnePlace.start wal n) hg hs
  hone.idsSafe

end Persistent
end Run

/-! ## The two stores -/

/-- **No id is ever shared.** -/
theorem ids_never_shared [Bincode Node] [Bincode Edge] :
    (∀ (wal : Option WalLog) (n : Nat) (moves : List (Nat × Move NodeCall))
      (s : Threads (Shared Node) (Pc Node Empty)),
      Guarded nodeThreads.step nodeThreads.Allowed
        (Interface.start { RecordStore.new with wal } n) moves →
      run nodeThreads.step (Interface.start { RecordStore.new with wal } n) moves = some s →
      IdsSafe nodeThreads s) ∧
    (∀ (wal : Option WalLog) (n : Nat) (moves : List (Nat × Move EdgeCall))
      (s : Threads (Shared Edge) (Pc Edge EdgeEdit)),
      Guarded edgeThreads.step edgeThreads.Allowed
        (Interface.start { RecordStore.new with wal } n) moves →
      run edgeThreads.step (Interface.start { RecordStore.new with wal } n) moves = some s →
      IdsSafe edgeThreads s) :=
  ⟨fun _ _ _ _ hg hs => idsSafe_of_run hg hs, fun _ _ _ _ hg hs => idsSafe_of_run hg hs⟩

/-- One thread inserts a node or an edge, and the other one, as soon as the record is in the map,
deletes it; the id is between the map and the free list. -/
def insertAndDelete {γ : Type} (insert hardDelete : γ) : List (Nat × Move γ) :=
  [(0, .call insert), (0, .step), (0, .step), (0, .step), (1, .call hardDelete), (1, .step),
    (1, .step)]

theorem ids_never_shared_two :
    (∃ s, run nodeThreads.step (Interface.start { RecordStore.new with wal := none } 2)
        (insertAndDelete (.op (.insertNode [] 0 1)) (.op (.hardDelete 0))) = some s ∧
      IdsSafe nodeThreads s) ∧
    ∃ s, run edgeThreads.step (Interface.start { RecordStore.new with wal := none } 2)
        (insertAndDelete (.op (.insertEdge 0 1 0 0 1)) (.op (.hardDelete 0))) = some s ∧
      IdsSafe edgeThreads s := by
  have hfirst : (0 : UInt64) < maxTxId := by decide
  have hsecond : (1 : UInt64) < maxTxId := by decide
  have hnodes : Guarded nodeThreads.step nodeThreads.Allowed
      (Interface.start { RecordStore.new with wal := none } 2)
      (insertAndDelete (.op (.insertNode [] 0 1)) (.op (.hardDelete 0))) := by
    refine Guarded.cons rfl (fun _ _ h => nomatch h) ?_
    refine Guarded.cons rfl (fun _ => hfirst) (Guarded.cons rfl (fun _ => hfirst) ?_)
    refine Guarded.cons rfl (fun _ => hsecond) ?_
    refine Guarded.cons rfl (fun _ _ h => nomatch h) ?_
    exact Guarded.cons rfl (fun _ => hsecond) (Guarded.cons rfl (fun _ => hsecond) trivial)
  have hedges : Guarded edgeThreads.step edgeThreads.Allowed
      (Interface.start { RecordStore.new with wal := none } 2)
      (insertAndDelete (.op (.insertEdge 0 1 0 0 1)) (.op (.hardDelete 0))) := by
    refine Guarded.cons rfl (fun _ _ h => nomatch h) ?_
    refine Guarded.cons rfl (fun _ => hfirst) (Guarded.cons rfl (fun _ => hfirst) ?_)
    refine Guarded.cons rfl (fun _ => hsecond) ?_
    refine Guarded.cons rfl (fun _ _ h => nomatch h) ?_
    exact Guarded.cons rfl (fun _ => hsecond) (Guarded.cons rfl (fun _ => hsecond) trivial)
  exact ⟨⟨_, rfl, ids_never_shared.1 none 2 _ _ hnodes rfl⟩,
    _, rfl, ids_never_shared.2 none 2 _ _ hedges rfl⟩

end LightGraph
