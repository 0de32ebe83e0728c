import LightGraph.Lib.Linear
import LightGraph.Proof.IdOwnership

/-!
# Each store is a map

To its callers a store is one map whose ids come from nowhere: an insert puts a record under an id
that is not in the map, a change replaces the record that is there, a removal takes it out, and
whoever looks under an id finds the record there or finds none (`MapOp`). The code takes several
steps for each call, over a free list, a counter, a map and a log. Whatever the threads do in
between each other's steps, it comes to a run of that map (`MapOp.apply`) with the operations that
the calls ask for, each made between the call's beginning and its end (`Traced`).

An insert, an update and a delete are one operation each, and so they are atomic. A compaction is
not: it looks at the entries one by one, and what it removes afterwards is whatever is under the ids
it has kept by then. Nor is an edit of the chains, which goes from edge to edge.

That an insert never finds a record under its id is not something the insert checks. It is what the
ids' ownership is for.
-/

set_option autoImplicit false

namespace LightGraph

open Lib

/-! ## The map the callers see -/

/-- One operation on the map. -/
inductive MapOp (ρ : Type)
  | insert (id : UInt64) (r : ρ)
  /-- `r` is under the id -/
  | look (id : UInt64) (r : ρ)
  /-- `r` is under the id, and `r'` is from now on -/
  | change (id : UInt64) (r r' : ρ)
  /-- `r` was under the id -/
  | remove (id : UInt64) (r : ρ)
  /-- there is nothing under the id -/
  | miss (id : UInt64)

/-- The operation, where the map allows it. -/
def MapOp.apply {ρ : Type} [DecidableEq ρ] (m : FiniteMap UInt64 ρ) :
    MapOp ρ → Option (FiniteMap UInt64 ρ)
  | .insert id r => if m.get id = none then some (m.put id r) else none
  | .look id r => if m.get id = some r then some m else none
  | .change id r r' => if m.get id = some r then some (m.put id r') else none
  | .remove id r => if m.get id = some r then some (m.remove id) else none
  | .miss id => if m.get id = none then some m else none

section Calls
variable {ρ κ γ : Type}

/-- An operation on an id that removes what is there, if anything is. -/
def Removes (id : UInt64) (op : MapOp ρ) : Prop := (∃ r, op = .remove id r) ∨ op = .miss id

/-- What a scan has looked at. -/
def looks (seen : List (UInt64 × ρ)) : List (MapOp ρ) := seen.map fun e => .look e.1 e.2

/-- The ids that a scan keeps of what it has looked at. -/
def kept (dead : ρ → Bool) (seen : List (UInt64 × ρ)) : List UInt64 :=
  (seen.filter fun e => dead e.2).map Prod.fst

/-- The operations an edit has made on its way from one point to another. -/
inductive Edits (edit : κ → EditStep ρ κ) (k : κ) : List (MapOp ρ) → Option κ → Prop
  | start : Edits edit k [] (some k)
  | absent {ops : List (MapOp ρ)} {k' : κ} {id : UInt64} {absent : Option κ}
      {present : ρ → ρ × Option κ} (h : Edits edit k ops (some k'))
      (hedit : edit k' = .access id absent present) : Edits edit k (ops ++ [.miss id]) absent
  | present {ops : List (MapOp ρ)} {k' : κ} {id : UInt64} {absent : Option κ}
      {present : ρ → ρ × Option κ} (h : Edits edit k ops (some k'))
      (hedit : edit k' = .access id absent present) (r : ρ) :
    Edits edit k (ops ++ [.change id r (present r).1]) (present r).2
  | persistAbsent {ops : List (MapOp ρ)} {k' : κ} {id : UInt64} {next : Option κ}
      (h : Edits edit k ops (some k')) (hedit : edit k' = .persist id next) :
    Edits edit k (ops ++ [.miss id]) next
  | persist {ops : List (MapOp ρ)} {k' : κ} {id : UInt64} {next : Option κ}
      (h : Edits edit k ops (some k')) (hedit : edit k' = .persist id next) (r : ρ) :
    Edits edit k (ops ++ [.look id r]) next

/-- The operations a call has made when it is over. -/
def Interface.Makes (I : Interface ρ κ γ) : Call ρ κ → List (MapOp ρ) → Prop
  | .insert make, ops => ∃ id, ops = [.insert id (make id)]
  | .allocIdDirect, ops => ops = []
  | .insertWithId id r, ops => ops = [.insert id r]
  | .modify id f, ops => (∃ r, ops = [.change id r (f r)]) ∨ ops = [.miss id]
  | .hardDelete id, ops => ∃ op, ops = [op] ∧ Removes id op
  | .compact oldestActive, ops => ∃ seen removals, ops = looks seen ++ removals ∧
      List.Forall₂ Removes (kept (I.dead oldestActive) seen) removals
  | .edit k, ops => Edits I.edit k ops none

end Calls

/-! ## What the steps come to -/

section Steps
variable {ρ κ γ : Type}

/-- The operation a step performs. -/
def Interface.performs (I : Interface ρ κ γ) (sh : Shared ρ) :
    Pc ρ κ → Move γ → List (MapOp ρ)
  | .insertPut id r, .step => [.insert id r]
  | .modify id f, .step =>
    match sh.store.records.get id with
    | some r => [.change id r (f r)]
    | none => [.miss id]
  | .deleteRemove id _, .step =>
    match sh.store.records.get id with
    | some r => [.remove id r]
    | none => [.miss id]
  | .scan _ _, .visit id =>
    match sh.store.records.get id with
    | some r => [.look id r]
    | none => []
  | .edit k, .step =>
    match I.edit k with
    | .access id _ present =>
      match sh.store.records.get id with
      | some r => [.change id r (present r).1]
      | none => [.miss id]
    | .persist id _ =>
      match sh.store.records.get id with
      | some r => [.look id r]
      | none => [.miss id]
  | _, _ => []

/-- The call a move begins. -/
def Move.begins : Move γ → List γ
  | .call c => [c]
  | _ => []

/-- Where a call stands that has performed these operations. -/
inductive Pending (I : Interface ρ κ γ) : Call ρ κ → List (MapOp ρ) → Pc ρ κ → Prop
  | insertPop {make : UInt64 → ρ} : Pending I (.insert make) [] (.insertPop make)
  | insertFetch {make : UInt64 → ρ} : Pending I (.insert make) [] (.insertFetch make)
  | insertPut {make : UInt64 → ρ} {id : UInt64} :
    Pending I (.insert make) [] (.insertPut id (make id))
  | insertSend {make : UInt64 → ρ} {id : UInt64} :
    Pending I (.insert make) [.insert id (make id)] (.insertSend id (make id))
  | allocPop : Pending I .allocIdDirect [] .allocPop
  | allocFetch : Pending I .allocIdDirect [] .allocFetch
  | putGiven {id : UInt64} {r : ρ} : Pending I (.insertWithId id r) [] (.insertPut id r)
  | sendGiven {id : UInt64} {r : ρ} :
    Pending I (.insertWithId id r) [.insert id r] (.insertSend id r)
  | modify {id : UInt64} {f : ρ → ρ} : Pending I (.modify id f) [] (.modify id f)
  | deleteSend {id : UInt64} : Pending I (.hardDelete id) [] (.deleteSend id .caller)
  | deleteRemove {id : UInt64} : Pending I (.hardDelete id) [] (.deleteRemove id .caller)
  | deletePush {id : UInt64} {r : ρ} :
    Pending I (.hardDelete id) [.remove id r] (.deletePush id .caller)
  | scan {oldest : TxId} {seen : List (UInt64 × ρ)} :
    Pending I (.compact oldest) (looks seen) (.scan oldest (kept (I.dead oldest) seen))
  | compactSend {oldest : TxId} {seen : List (UInt64 × ρ)} {removals : List (MapOp ρ)} {id : UInt64}
      {ids todo : List UInt64} (hkept : kept (I.dead oldest) seen = ids ++ id :: todo)
      (hdone : List.Forall₂ Removes ids removals) :
    Pending I (.compact oldest) (looks seen ++ removals) (.deleteSend id (.compact oldest todo))
  | compactRemove {oldest : TxId} {seen : List (UInt64 × ρ)} {removals : List (MapOp ρ)}
      {id : UInt64} {ids todo : List UInt64}
      (hkept : kept (I.dead oldest) seen = ids ++ id :: todo)
      (hdone : List.Forall₂ Removes ids removals) :
    Pending I (.compact oldest) (looks seen ++ removals) (.deleteRemove id (.compact oldest todo))
  | compactPush {oldest : TxId} {seen : List (UInt64 × ρ)} {removals : List (MapOp ρ)} {id : UInt64}
      {ids todo : List UInt64} (hkept : kept (I.dead oldest) seen = ids ++ todo)
      (hdone : List.Forall₂ Removes ids removals) :
    Pending I (.compact oldest) (looks seen ++ removals) (.deletePush id (.compact oldest todo))
  | edit {k k' : κ} {ops : List (MapOp ρ)} (h : Edits I.edit k ops (some k')) :
    Pending I (.edit k) ops (.edit k')

/-- The calls a thread has begun and the operations it has performed: each call that is over has
performed its own, and the last one may be under way. -/
inductive Traced (I : Interface ρ κ γ) : List γ → List (MapOp ρ) → Pc ρ κ → Prop
  | idle {done : List (γ × List (MapOp ρ))} (h : ∀ d ∈ done, I.Makes (I.body d.1) d.2) :
    Traced I (done.map Prod.fst) (done.flatMap Prod.snd) .idle
  | calling {done : List (γ × List (MapOp ρ))} {c : γ} {ops : List (MapOp ρ)} {p : Pc ρ κ}
      (h : ∀ d ∈ done, I.Makes (I.body d.1) d.2) (hpending : Pending I (I.body c) ops p) :
    Traced I (done.map Prod.fst ++ [c]) (done.flatMap Prod.snd ++ ops) p

/-- Behind a step a call is over, with its own operations performed, or still under way. -/
def Goes (I : Interface ρ κ γ) (c : Call ρ κ) (ops : List (MapOp ρ)) (p : Pc ρ κ) : Prop :=
  p = .idle ∧ I.Makes c ops ∨ Pending I c ops p

variable {I : Interface ρ κ γ}

/-- Behind a removal a compaction goes on to its next id. -/
theorem Goes.next {oldest : TxId} {seen : List (UInt64 × ρ)} {removals : List (MapOp ρ)}
    {ids todo : List UInt64} (hkept : kept (I.dead oldest) seen = ids ++ todo)
    (hdone : List.Forall₂ Removes ids removals) :
    Goes I (.compact oldest) (looks seen ++ removals) (Deleter.compact oldest todo).next := by
  cases todo with
  | nil =>
    rw [List.append_nil] at hkept
    exact Or.inl ⟨rfl, seen, removals, rfl, hkept ▸ hdone⟩
  | cons id todo => exact Or.inr (.compactSend hkept hdone)

/-- What a compaction has done, with one id more. -/
theorem removed_snoc {ids : List UInt64} {removals : List (MapOp ρ)} {id : UInt64} {op : MapOp ρ}
    (hdone : List.Forall₂ Removes ids removals) (hop : Removes id op) :
    List.Forall₂ Removes (ids ++ [id]) (removals ++ [op]) :=
  List.rel_append hdone (List.Forall₂.cons hop List.Forall₂.nil)

theorem Goes.ofEdit {k : κ} {ops : List (MapOp ρ)} {next : Option κ}
    (h : Edits I.edit k ops next) : Goes I (.edit k) ops (Pc.ofEdit next) := by
  cases next with
  | none => exact Or.inl ⟨rfl, h⟩
  | some k' => exact Or.inr (.edit h)

/-- A call begins with nothing performed. -/
theorem Pending.entry (c : Call ρ κ) : Pending I c [] c.entry := by
  cases c with
  | insert make => exact .insertPop
  | allocIdDirect => exact .allocPop
  | insertWithId id r => exact .putGiven
  | modify id f => exact .modify
  | hardDelete id => exact .deleteSend
  | compact oldest =>
    show Pending I (.compact oldest) (looks []) (.scan oldest (kept (I.dead oldest) []))
    exact .scan
  | edit k => exact .edit .start

variable [Bincode ρ] {sh sh' : Shared ρ} {p p' : Pc ρ κ} {m : Move γ}

/-- **A step of a call** performs what the call is for. -/
theorem Pending.step {c : Call ρ κ} {ops : List (MapOp ρ)} (h : Pending I c ops p)
    (hfires : I.Fires sh p m sh' p') :
    m.begins = [] ∧ Goes I c (ops ++ I.performs sh p m) p' := by
  cases h with
  | insertPop =>
    cases hfires with
    | insertPop hfree => exact ⟨rfl, Or.inr .insertPut⟩
    | insertEmpty hfree => exact ⟨rfl, Or.inr .insertFetch⟩
  | insertFetch => cases hfires with | insertFetch => exact ⟨rfl, Or.inr .insertPut⟩
  | insertPut => cases hfires with | insertPut => exact ⟨rfl, Or.inr .insertSend⟩
  | insertSend => cases hfires with | insertSend => exact ⟨rfl, Or.inl ⟨rfl, _, rfl⟩⟩
  | allocPop =>
    cases hfires with
    | allocPop hfree => exact ⟨rfl, Or.inl ⟨rfl, rfl⟩⟩
    | allocEmpty hfree => exact ⟨rfl, Or.inr .allocFetch⟩
  | allocFetch => cases hfires with | allocFetch => exact ⟨rfl, Or.inl ⟨rfl, rfl⟩⟩
  | putGiven => cases hfires with | insertPut => exact ⟨rfl, Or.inr .sendGiven⟩
  | sendGiven => cases hfires with | insertSend => exact ⟨rfl, Or.inl ⟨rfl, rfl⟩⟩
  | modify =>
    cases hfires with
    | modify =>
      refine ⟨rfl, Or.inl ⟨rfl, ?_⟩⟩
      simp only [Interface.performs, List.nil_append]
      split
      · exact Or.inl ⟨_, rfl⟩
      · exact Or.inr rfl
  | deleteSend => cases hfires with | deleteSend => exact ⟨rfl, Or.inr .deleteRemove⟩
  | deleteRemove =>
    cases hfires with
    | deleteRemove hget =>
      simp only [Interface.performs, hget]
      exact ⟨rfl, Or.inr .deletePush⟩
    | deleteAbsent hget =>
      simp only [Interface.performs, hget]
      exact ⟨rfl, Or.inl ⟨rfl, _, rfl, Or.inr rfl⟩⟩
  | deletePush =>
    cases hfires with
    | deletePush => exact ⟨rfl, Or.inl ⟨rfl, _, rfl, Or.inl ⟨_, rfl⟩⟩⟩
  | @scan oldest seen =>
    cases hfires with
    | @visit _ _ id r hget =>
      refine ⟨rfl, Or.inr ?_⟩
      simp only [Interface.performs, hget]
      have hlooks : looks seen ++ [.look id r] = looks (seen ++ [(id, r)]) := by
        rw [looks, looks, List.map_append]
        rfl
      have hkept : (if I.dead oldest r then kept (I.dead oldest) seen ++ [id]
          else kept (I.dead oldest) seen) = kept (I.dead oldest) (seen ++ [(id, r)]) := by
        rw [kept, kept, List.filter_append, List.map_append]
        by_cases hdead : I.dead oldest r = true
        · simp [hdead]
        · simp [hdead]
      rw [hlooks, hkept]
      exact .scan
    | scanned =>
      have hnone : kept (I.dead oldest) seen = [] ++ kept (I.dead oldest) seen := rfl
      exact ⟨rfl, Goes.next hnone List.Forall₂.nil⟩
  | compactSend hkept hdone =>
    cases hfires with
    | deleteSend =>
      refine ⟨rfl, Or.inr ?_⟩
      simp only [Interface.performs, List.append_nil]
      exact .compactRemove hkept hdone
  | compactRemove hkept hdone =>
    have hnext := hkept.trans (List.append_cons ..)
    cases hfires with
    | deleteRemove hget =>
      refine ⟨rfl, Or.inr ?_⟩
      simp only [Interface.performs, hget, List.append_assoc]
      exact .compactPush hnext (removed_snoc hdone (Or.inl ⟨_, rfl⟩))
    | deleteAbsent hget =>
      refine ⟨rfl, ?_⟩
      simp only [Interface.performs, hget, List.append_assoc]
      exact Goes.next hnext (removed_snoc hdone (Or.inr rfl))
  | compactPush hkept hdone =>
    cases hfires with
    | deletePush =>
      refine ⟨rfl, ?_⟩
      simp only [Interface.performs, List.append_nil]
      exact Goes.next hkept hdone
  | edit hops =>
    cases hfires with
    | editAbsent hedit hget =>
      simp only [Interface.performs, hedit, hget]
      exact ⟨rfl, Goes.ofEdit (hops.absent hedit)⟩
    | @editPresent _ _ _ _ r hedit hget =>
      simp only [Interface.performs, hedit, hget]
      exact ⟨rfl, Goes.ofEdit (hops.present hedit r)⟩
    | persistAbsent hedit hget =>
      simp only [Interface.performs, hedit, hget]
      exact ⟨rfl, Goes.ofEdit (hops.persistAbsent hedit)⟩
    | @persist _ _ _ r hedit hget =>
      simp only [Interface.performs, hedit, hget]
      exact ⟨rfl, Goes.ofEdit (hops.persist hedit r)⟩

omit [Bincode ρ] in
theorem Traced.nil : Traced I [] [] .idle := by
  have hnone : ∀ d ∈ ([] : List (γ × List (MapOp ρ))), I.Makes (I.body d.1) d.2 :=
    fun d hd => absurd hd List.not_mem_nil
  exact Traced.idle hnone

theorem Traced.step {calls : List γ} {ops : List (MapOp ρ)} (h : Traced I calls ops p)
    (hfires : I.Fires sh p m sh' p') :
    Traced I (calls ++ m.begins) (ops ++ I.performs sh p m) p' := by
  cases h with
  | @idle done hdone =>
    cases hfires with
    | @call c hbody =>
      exact .calling hdone (Pending.entry _)
    | @insertWithId c id r hbody =>
      exact .calling hdone (by rw [hbody]; exact .putGiven)
  | @calling done c ops p hdone hpending =>
    obtain ⟨hbegins, hgoes⟩ := hpending.step hfires
    rw [hbegins, List.append_nil, List.append_assoc]
    rcases hgoes with ⟨rfl, hmakes⟩ | hpending
    · have hover : ∀ d ∈ done ++ [(c, ops ++ I.performs sh p m)], I.Makes (I.body d.1) d.2 := by
        intro d hd
        rcases List.mem_append.mp hd with hd | hd
        · exact hdone d hd
        · rw [List.mem_singleton.mp hd]
          exact hmakes
      have htraced := Traced.idle hover
      rwa [List.map_append, List.flatMap_append, List.flatMap_singleton] at htraced
    · exact .calling hdone hpending

/-- **A step is its operations**, where it inserts over nothing. -/
theorem Interface.Fires.applies [DecidableEq ρ] (h : I.Fires sh p m sh' p')
    (habsent : ∀ id r, p = .insertPut id r → sh.store.records.get id = none) :
    run MapOp.apply sh.store.records (I.performs sh p m) = some sh'.store.records := by
  cases h with
  | insertPut =>
    have hnone := habsent _ _ rfl
    simp only [performs, run, MapOp.apply, hnone, if_true]
  | @modify id f =>
    cases hget : sh.store.records.get id with
    | none => simp [performs, run, MapOp.apply, hget, RecordStore.modify]
    | some r => simp [performs, run, MapOp.apply, hget, RecordStore.modify]
  | deleteRemove hget => simp [performs, run, MapOp.apply, hget]
  | deleteAbsent hget => simp [performs, run, MapOp.apply, hget]
  | visit hget => simp [performs, run, MapOp.apply, hget]
  | editAbsent hedit hget => simp [performs, run, MapOp.apply, hedit, hget]
  | editPresent hedit hget => simp [performs, run, MapOp.apply, hedit, hget]
  | persistAbsent hedit hget => simp [performs, run, MapOp.apply, hedit, hget]
  | persist hedit hget => simp [performs, run, MapOp.apply, hedit, hget]
  | deleteSend => simp [performs]
  | insertSend => simp [performs]
  | _ => rfl

end Steps

/-! ## Any number of threads -/

section Run
variable {ρ κ γ : Type} [Bincode ρ] [DecidableEq ρ]

/-- What a schedule comes to: a run of the map with the operations `ops`, of which each thread has
performed its calls'. -/
structure RunsMap (I : Interface ρ κ γ) (moves : List (Nat × Move γ))
    (ops : List (Nat × MapOp ρ)) (s : Threads (Shared ρ) (Pc ρ κ)) : Prop where
  sequential : run MapOp.apply ∅ (ops.map Prod.snd) = some s.shared.store.records
  each : ∀ i p, s.threads[i]? = some p →
    Traced I (Threads.callsOf Move.begins i moves) (Threads.ofThread i ops) p

theorem runsMap_of_run {I : Interface ρ κ γ} {wal : Option WalLog} {n : Nat}
    {moves : List (Nat × Move γ)} {s : Threads (Shared ρ) (Pc ρ κ)}
    (hg : Guarded I.step I.Allowed (Interface.start { RecordStore.new with wal } n) moves)
    (hs : run I.step (Interface.start { RecordStore.new with wal } n) moves = some s) :
    RunsMap I moves (Threads.history I.exec I.performs
      (Interface.start { RecordStore.new with wal } n) moves) s where
  sequential := Threads.run_history (I := OnePlace) (f := fun sh => sh.store.records)
    (fun _ _ _ h hg hst => OnePlace.step h hg hst)
    (fun u i m p shared p' hu _ hp hexec => (Interface.exec_fires hexec).applies fun id r hpc =>
      hu.absent (Or.inr (mem_reservedIds (List.mem_of_getElem? (hpc ▸ hp)))))
    (OnePlace.start wal n) hg hs
  each := by
    intro i p hp
    have hlen : s.threads.length = n := by
      refine run_invariant (I := fun u : Threads (Shared ρ) (Pc ρ κ) => u.threads.length = n)
        (fun u a t hu hst => ?_) (List.length_replicate ..) hs
      obtain ⟨q, shared, q', -, -, rfl⟩ := Threads.step_inv hst
      rw [List.length_set]
      exact hu
    have hi : i < n := hlen ▸ (List.getElem?_eq_some_iff.mp hp).1
    have hidle : (Interface.start { RecordStore.new with wal } n :
        Threads (Shared ρ) (Pc ρ κ)).threads[i]? = some .idle := by
      rw [Interface.start, List.getElem?_replicate, if_pos hi]
    obtain ⟨q, hq, htraced⟩ := Threads.traced_history (J := Traced I) (i := i)
      (fun _ _ _ _ _ _ _ hj hexec => hj.step (Interface.exec_fires hexec)) hs hidle
      Traced.nil
    obtain rfl := Option.some.inj (hp.symm.trans hq)
    exact htraced

end Run

/-- **Each store is a map.** What its threads have done to it, in any interleaving, are the map
operations of their calls, one after the other. -/
theorem stores_run_maps [Bincode Node] [Bincode Edge] :
    (∀ (wal : Option WalLog) (n : Nat) (moves : List (Nat × Move NodeCall))
      (s : Threads (Shared Node) (Pc Node Empty)),
      Guarded nodeThreads.step nodeThreads.Allowed
        (Interface.start { RecordStore.new with wal } n) moves →
      run nodeThreads.step (Interface.start { RecordStore.new with wal } n) moves = some s →
      RunsMap nodeThreads moves (Threads.history nodeThreads.exec nodeThreads.performs
        (Interface.start { RecordStore.new with wal } n) moves) s) ∧
    (∀ (wal : Option WalLog) (n : Nat) (moves : List (Nat × Move EdgeCall))
      (s : Threads (Shared Edge) (Pc Edge EdgeEdit)),
      Guarded edgeThreads.step edgeThreads.Allowed
        (Interface.start { RecordStore.new with wal } n) moves →
      run edgeThreads.step (Interface.start { RecordStore.new with wal } n) moves = some s →
      RunsMap edgeThreads moves (Threads.history edgeThreads.exec edgeThreads.performs
        (Interface.start { RecordStore.new with wal } n) moves) s) :=
  ⟨fun _ _ _ _ hg hs => runsMap_of_run hg hs, fun _ _ _ _ hg hs => runsMap_of_run hg hs⟩

/-- One thread inserts, and before it has sent the record to the log another one changes it. -/
def insertAndUpdate {γ : Type} (insert update : γ) : List (Nat × Move γ) :=
  [(0, .call insert), (0, .step), (0, .step), (0, .step), (1, .call update), (1, .step)]

theorem stores_run_maps_two :
    (∃ s, run nodeThreads.step (Interface.start { RecordStore.new with wal := none } 2)
        (insertAndUpdate (.op (.insertNode [] 0 1)) (.op (.softDelete 0 2))) = some s ∧
      RunsMap nodeThreads (insertAndUpdate (.op (.insertNode [] 0 1)) (.op (.softDelete 0 2)))
        (Threads.history nodeThreads.exec nodeThreads.performs
          (Interface.start { RecordStore.new with wal := none } 2)
          (insertAndUpdate (.op (.insertNode [] 0 1)) (.op (.softDelete 0 2)))) s) ∧
    ∃ s, run edgeThreads.step (Interface.start { RecordStore.new with wal := none } 2)
        (insertAndUpdate (.op (.insertEdge 0 1 0 0 1)) (.op (.softDelete 0 2))) = some s ∧
      RunsMap edgeThreads
        (insertAndUpdate (.op (.insertEdge 0 1 0 0 1)) (.op (.softDelete 0 2)))
        (Threads.history edgeThreads.exec edgeThreads.performs
          (Interface.start { RecordStore.new with wal := none } 2)
          (insertAndUpdate (.op (.insertEdge 0 1 0 0 1)) (.op (.softDelete 0 2)))) s := by
  have hfirst : (0 : UInt64) < maxTxId := by decide
  have hsecond : (1 : UInt64) < maxTxId := by decide
  have hnodes : Guarded nodeThreads.step nodeThreads.Allowed
      (Interface.start { RecordStore.new with wal := none } 2)
      (insertAndUpdate (.op (.insertNode [] 0 1)) (.op (.softDelete 0 2))) := by
    refine Guarded.cons rfl (fun _ _ h => by cases h) ?_
    refine Guarded.cons rfl (fun _ => hfirst) (Guarded.cons rfl (fun _ => hfirst) ?_)
    refine Guarded.cons rfl (fun _ => hsecond) ?_
    refine Guarded.cons rfl (fun _ _ h => by cases h) ?_
    exact Guarded.cons rfl (fun _ => hsecond) trivial
  have hedges : Guarded edgeThreads.step edgeThreads.Allowed
      (Interface.start { RecordStore.new with wal := none } 2)
      (insertAndUpdate (.op (.insertEdge 0 1 0 0 1)) (.op (.softDelete 0 2))) := by
    refine Guarded.cons rfl (fun _ _ h => by cases h) ?_
    refine Guarded.cons rfl (fun _ => hfirst) (Guarded.cons rfl (fun _ => hfirst) ?_)
    refine Guarded.cons rfl (fun _ => hsecond) ?_
    refine Guarded.cons rfl (fun _ _ h => by cases h) ?_
    exact Guarded.cons rfl (fun _ => hsecond) trivial
  exact ⟨⟨_, rfl, stores_run_maps.1 none 2 _ _ hnodes rfl⟩,
    _, rfl, stores_run_maps.2 none 2 _ _ hedges rfl⟩

end LightGraph
