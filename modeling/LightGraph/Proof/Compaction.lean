import LightGraph.Storage.Bincode
import LightGraph.Storage.StoreThreads

/-!
# What a compaction removes

`compact` collects the ids of dead nodes, and then hard deletes by id. Whether the node is still
the one it saw it does not ask again, and ids are reused: in between, somebody may free the id
and somebody else put a new node under it. As long as nobody puts a live node under an id that a
compaction has collected, every node it removes is dead, and that is as much as can be asked:
after the first such write the compaction, if it only goes on, removes the live node.
-/

set_option autoImplicit false

namespace LightGraph

open Lib

section Compaction
variable [Bincode Node]

abbrev NodeThreads := Threads (Shared Node) (Pc Node Empty)

/-- The ids a compaction has collected and not removed yet, each with its `oldest_active_tx`. -/
def Pc.condemned : Pc Node Empty → List (TxId × NodeId)
  | .scan oldestActive found => found.map (oldestActive, ·)
  | .deleteSend id (.compact oldestActive todo) => (id :: todo).map (oldestActive, ·)
  | .deleteRemove id (.compact oldestActive todo) => (id :: todo).map (oldestActive, ·)
  | .deletePush _ (.compact oldestActive todo) => todo.map (oldestActive, ·)
  | _ => []

/-- The node that the next step of a thread puts into the map, and its id. -/
def Pc.written (sh : Shared Node) : Pc Node Empty → Option (NodeId × Node)
  | .insertPut id node => some (id, node)
  | .modify id f => (sh.store.records.get id).map fun node => (id, f node)
  | _ => none

/-- Every node a compaction is about to remove is dead to it. -/
def CompactsDead (s : NodeThreads) : Prop :=
  ∀ id oldestActive todo node, .deleteRemove id (.compact oldestActive todo) ∈ s.threads →
    s.shared.store.records.get id = some node → node.deletedTx < oldestActive

/-- The step puts no node under a collected id that the compaction would not collect. -/
def SparesCollected (s : NodeThreads) (a : Nat × Move NodeCall) : Prop :=
  a.2 = .step → ∀ p id node oldestActive, s.threads[a.1]? = some p →
    p.written s.shared = some (id, node) →
    (oldestActive, id) ∈ s.threads.flatMap Pc.condemned → node.deletedTx < oldestActive

/-! ## Under the condition -/

variable {sh sh' : Shared Node} {p p' : Pc Node Empty} {m : Move NodeCall} {s t : NodeThreads}
  {a : Nat × Move NodeCall}

/-- What is there under the ids a thread has collected is dead. -/
def CollectedDead (sh : Shared Node) (p : Pc Node Empty) : Prop :=
  ∀ oldestActive id, (oldestActive, id) ∈ p.condemned →
    ∀ node, sh.store.records.get id = some node → node.deletedTx < oldestActive

omit [Bincode Node] in
theorem condemned_next (d : Deleter) (id : NodeId) :
    (d.next : Pc Node Empty).condemned = (Pc.deletePush id d).condemned := by
  cases d with
  | caller => rfl
  | compact oldestActive todo => cases todo <;> rfl

omit [Bincode Node] in
theorem condemned_entry (c : Call Node Empty) : c.entry.condemned = [] := by
  cases c with
  | edit k => exact k.elim
  | _ => rfl

/-- What a step leaves in the map was there, or the step has put it there. -/
theorem Interface.Fires.get_of_get (h : nodeThreads.Fires sh p m sh' p') {id : NodeId}
    {node : Node} (hget : sh'.store.records.get id = some node) :
    sh.store.records.get id = some node ∨ m = .step ∧ p.written sh = some (id, node) := by
  cases h with
  | @insertPut id' r =>
    rw [FiniteMap.get_put] at hget
    split at hget
    · rename_i heq
      rw [Pc.written, heq, Option.some.inj hget]
      exact Or.inr ⟨rfl, rfl⟩
    · exact Or.inl hget
  | @modify id' f =>
    rw [RecordStore.modify_records, FiniteMap.get_alter] at hget
    split at hget
    · rename_i heq
      obtain ⟨r, hr, rfl⟩ := Option.map_eq_some_iff.mp hget
      rw [Pc.written, heq, hr]
      exact Or.inr ⟨rfl, rfl⟩
    · exact Or.inl hget
  | @deleteRemove id' d r hr =>
    rw [FiniteMap.get_remove] at hget
    split at hget
    · exact absurd hget (by simp)
    · exact Or.inl hget
  | insertSend => exact Or.inl (by simpa using hget)
  | deleteSend => exact Or.inl (by simpa using hget)
  | @editAbsent k | @editPresent k | @persistAbsent k | @persist k => exact k.elim
  | _ => exact Or.inl hget

/-- What a thread has collected it had collected before, or it has just seen it dead. -/
theorem Interface.Fires.collected (h : nodeThreads.Fires sh p m sh' p') {oldestActive : TxId}
    {id : NodeId} (hmem : (oldestActive, id) ∈ p'.condemned) :
    p.written sh = none ∧ ((oldestActive, id) ∈ p.condemned ∨
      ∃ node, sh.store.records.get id = some node ∧ node.deletedTx < oldestActive) := by
  cases h with
  | call hbody =>
    rw [condemned_entry] at hmem
    exact absurd hmem List.not_mem_nil
  | @deleteRemove id' d r hget =>
    refine ⟨rfl, Or.inl ?_⟩
    cases d with
    | caller => exact hmem
    | compact o todo => exact List.mem_cons_of_mem _ hmem
  | @deleteAbsent id' d hget =>
    rw [condemned_next d id'] at hmem
    refine ⟨rfl, Or.inl ?_⟩
    cases d with
    | caller => exact hmem
    | compact o todo => exact List.mem_cons_of_mem _ hmem
  | deletePush =>
    rw [condemned_next] at hmem
    exact ⟨rfl, Or.inl hmem⟩
  | @deleteSend id' d =>
    refine ⟨rfl, Or.inl ?_⟩
    cases d with
    | caller => exact hmem
    | compact o todo => exact hmem
  | @visit o found id' node hget =>
    refine ⟨rfl, ?_⟩
    by_cases hdead : nodeThreads.dead o node = true
    · rw [if_pos hdead] at hmem
      simp only [Pc.condemned, List.map_append, List.mem_append, List.map_cons, List.map_nil,
        List.mem_singleton] at hmem
      rcases hmem with hmem | hmem
      · exact Or.inl hmem
      · obtain ⟨rfl, rfl⟩ := Prod.mk.inj hmem
        exact Or.inr ⟨node, hget, of_decide_eq_true hdead⟩
    · rw [if_neg hdead] at hmem
      exact Or.inl hmem
  | scanned =>
    rw [condemned_next _ 0] at hmem
    exact ⟨rfl, Or.inl hmem⟩
  | @editAbsent k | @editPresent k | @persistAbsent k | @persist k => exact k.elim
  | _ => exact absurd hmem List.not_mem_nil

/-- The mover's own ids. -/
theorem CollectedDead.own (h : CollectedDead sh p) (hf : nodeThreads.Fires sh p m sh' p') :
    CollectedDead sh' p' := by
  intro oldestActive id hmem node hget
  obtain ⟨hwrite, hseen⟩ := hf.collected hmem
  have hold : sh.store.records.get id = some node := by
    rcases hf.get_of_get hget with hget | ⟨-, hput⟩
    · exact hget
    · rw [hwrite] at hput
      exact absurd hput (by simp)
  rcases hseen with hmem | ⟨seen, hseen, hdead⟩
  · exact h oldestActive id hmem node hold
  · rw [hold] at hseen
    exact Option.some.inj hseen ▸ hdead

/-- The ids of the others. -/
theorem CollectedDead.others {q : Pc Node Empty} (h : CollectedDead sh q)
    (hf : nodeThreads.Fires sh p m sh' p')
    (hspare : ∀ id node oldestActive, m = .step → p.written sh = some (id, node) →
      (oldestActive, id) ∈ q.condemned → node.deletedTx < oldestActive) :
    CollectedDead sh' q := by
  intro oldestActive id hmem node hget
  rcases hf.get_of_get hget with hget | ⟨hm, hput⟩
  · exact h oldestActive id hmem node hget
  · exact hspare id node oldestActive hm hput hmem

/-- **A step that spares what is collected** leaves every thread with dead ids only. -/
theorem collectedDead_step (h : ∀ q ∈ s.threads, CollectedDead s.shared q)
    (hg : SparesCollected s a) (hs : nodeThreads.step s a = some t) :
    ∀ q ∈ t.threads, CollectedDead t.shared q := by
  obtain ⟨i, m⟩ := a
  refine (Threads.step_each (G := fun _ => True) ⟨trivial, h⟩ hs ?_ ?_).2
  · intro p shared p' hp hexec
    exact ⟨trivial, (h p (List.mem_of_getElem? hp)).own (Interface.exec_fires hexec)⟩
  · intro p shared p' q hp hexec hq hdead
    refine hdead.others (Interface.exec_fires hexec) ?_
    intro id node oldestActive hm hput hmem
    exact hg hm p id node oldestActive hp hput (List.mem_flatMap.mpr ⟨q, hq, hmem⟩)

theorem compactsDead_of_run {store : RecordStore Node} {n : Nat}
    {moves : List (Nat × Move NodeCall)}
    (hg : Guarded nodeThreads.step SparesCollected (Interface.start store n) moves)
    (hs : run nodeThreads.step (Interface.start store n) moves = some s) : CompactsDead s := by
  have hstart : ∀ q ∈ (Interface.start store n : NodeThreads).threads,
      CollectedDead (Interface.start store n : NodeThreads).shared q := by
    intro q hq oldestActive id hmem
    rw [List.eq_of_mem_replicate hq] at hmem
    exact absurd hmem List.not_mem_nil
  have hdead := guarded_invariant (I := fun s => ∀ q ∈ s.threads, CollectedDead s.shared q)
    (fun _ _ _ h hg hs => collectedDead_step h hg hs) hstart hg hs
  intro id oldestActive todo node hmem hget
  exact hdead _ hmem oldestActive id List.mem_cons_self node hget

/-! ## Without it -/

/-- A compaction that is left alone comes to each of its ids, and finds there what was there. -/
theorem alone_reaches {id : NodeId} {node : Node} {oldestActive : TxId} {todo : List NodeId} :
    ∀ (sh : Shared Node) {id' : NodeId}, id ∈ id' :: todo →
      sh.store.records.get id = some node →
      ∃ moves sh' todo', Threads.alone nodeThreads.exec
          (sh, .deleteRemove id' (.compact oldestActive todo)) moves
            = some (sh', .deleteRemove id (.compact oldestActive todo')) ∧
        sh'.store.records.get id = some node := by
  induction todo with
  | nil =>
    intro sh id' hmem hget
    obtain rfl := List.mem_singleton.mp hmem
    exact ⟨[], sh, [], rfl, hget⟩
  | cons next todo ih =>
    intro sh id' hmem hget
    by_cases heq : id = id'
    · subst heq
      exact ⟨[], sh, next :: todo, rfl, hget⟩
    · have hmem' : id ∈ next :: todo := (List.mem_cons.mp hmem).resolve_left heq
      cases hget' : sh.store.records.get id' with
      | none =>
        obtain ⟨moves, sh', todo', hrun, hkept⟩ :=
          ih { sh with store := sh.store.walDelete next } hmem' (by simpa using hget)
        refine ⟨.step :: .step :: moves, sh', todo', ?_, hkept⟩
        simpa [Threads.alone, run, Interface.exec, hget', Deleter.next] using hrun
      | some other =>
        let store : RecordStore Node :=
          { sh.store with
            records := sh.store.records.remove id'
            freeList := sh.store.freeList ++ [id']
            freeCount := sh.store.freeCount + 1 }
        obtain ⟨moves, sh', todo', hrun, hkept⟩ :=
          ih { sh with store := store.walDelete next } hmem'
            (by simpa [store, FiniteMap.get_remove_ne _ heq] using hget)
        refine ⟨.step :: .step :: .step :: moves, sh', todo', ?_, hkept⟩
        simpa [Threads.alone, run, Interface.exec, hget', Deleter.next, store] using hrun

/-- A thread that has collected an id comes to remove what is there under it. -/
theorem alone_removes {id : NodeId} {node : Node} {oldestActive : TxId}
    (hmem : (oldestActive, id) ∈ p.condemned) (hget : sh.store.records.get id = some node) :
    ∃ moves sh' todo', Threads.alone nodeThreads.exec (sh, p) moves
        = some (sh', .deleteRemove id (.compact oldestActive todo')) ∧
      sh'.store.records.get id = some node := by
  -- the loop of hard deletes, from the head of an iteration
  have hloop : ∀ (sh : Shared Node) {o : TxId} (todo : List NodeId),
      sh.store.records.get id = some node → (oldestActive, id) ∈ todo.map (o, ·) →
      ∃ moves sh' todo', Threads.alone nodeThreads.exec (sh, (Deleter.compact o todo).next) moves
          = some (sh', .deleteRemove id (.compact oldestActive todo')) ∧
        sh'.store.records.get id = some node := by
    intro sh o todo hget hmem
    obtain ⟨id', hin, heq⟩ := List.mem_map.mp hmem
    obtain ⟨rfl, rfl⟩ := Prod.mk.inj heq
    cases todo with
    | nil => exact absurd hin List.not_mem_nil
    | cons next todo =>
      obtain ⟨moves, sh', todo', hrun, hkept⟩ :=
        alone_reaches { sh with store := sh.store.walDelete next } hin (by simpa using hget)
      exact ⟨.step :: moves, sh', todo', hrun, hkept⟩
  cases p with
  | scan o found =>
    obtain ⟨moves, sh', todo', hrun, hkept⟩ := hloop sh found hget hmem
    exact ⟨.scanned :: moves, sh', todo', hrun, hkept⟩
  | deleteSend id' d =>
    cases d with
    | caller => exact absurd hmem List.not_mem_nil
    | compact o todo => exact hloop sh (id' :: todo) hget hmem
  | deleteRemove id' d =>
    cases d with
    | caller => exact absurd hmem List.not_mem_nil
    | compact o todo =>
      obtain ⟨id'', hin, heq⟩ := List.mem_map.mp hmem
      obtain ⟨rfl, rfl⟩ := Prod.mk.inj heq
      exact alone_reaches sh hin hget
  | deletePush id' d =>
    cases d with
    | caller => exact absurd hmem List.not_mem_nil
    | compact o todo =>
      obtain ⟨moves, sh', todo', hrun, hkept⟩ :=
        hloop { sh with store := { sh.store with
          freeList := sh.store.freeList ++ [id']
          freeCount := sh.store.freeCount + 1 } } todo hget hmem
      exact ⟨.step :: moves, sh', todo', hrun, hkept⟩
  | _ => exact absurd hmem List.not_mem_nil

omit [Bincode Node] in
theorem condemned_of_written {x : NodeId × Node} (h : p.written sh = some x) :
    p.condemned = [] := by
  cases p with
  | scan o found => exact absurd h (by simp [Pc.written])
  | deleteSend id d => exact absurd h (by simp [Pc.written])
  | deleteRemove id d => exact absurd h (by simp [Pc.written])
  | deletePush id d => exact absurd h (by simp [Pc.written])
  | _ => rfl

/-- What a step writes is in the map behind it. -/
theorem Interface.Fires.get_written (h : nodeThreads.Fires sh p .step sh' p') {id : NodeId}
    {node : Node} (hput : p.written sh = some (id, node)) :
    sh'.store.records.get id = some node := by
  cases h with
  | insertPut =>
    obtain ⟨rfl, rfl⟩ := Prod.mk.inj (Option.some.inj hput)
    exact FiniteMap.get_put_self _ _ _
  | @modify id' f =>
    obtain ⟨r, hr, heq⟩ := Option.map_eq_some_iff.mp hput
    obtain ⟨rfl, rfl⟩ := Prod.mk.inj heq
    simp [RecordStore.modify_records, FiniteMap.get_alter, hr]
  | _ => exact absurd hput (by simp [Pc.written])

/-- After the first write that does not spare what is collected, the compaction need only go
on. -/
theorem not_compactsDead_of_write (hs : nodeThreads.step s a = some t)
    (hwrite : ¬ SparesCollected s a) :
    ∃ moves u, run nodeThreads.step t moves = some u ∧ ¬ CompactsDead u := by
  obtain ⟨i, m⟩ := a
  simp only [SparesCollected, not_forall] at hwrite
  obtain ⟨rfl, p, id, node, oldestActive, hp, hput, hmem, halive⟩ := hwrite
  obtain ⟨p₀, shared, p', hp₀, hexec, rfl⟩ := Threads.step_inv hs
  obtain rfl : p₀ = p := Option.some.inj (hp₀.symm.trans hp)
  have hget := (Interface.exec_fires hexec).get_written hput
  obtain ⟨q, hq, hcollected⟩ := List.mem_flatMap.mp hmem
  obtain ⟨j, hj⟩ := List.mem_iff_getElem?.mp hq
  -- the writer has collected nothing, so it is another thread that has
  have hij : i ≠ j := by
    rintro rfl
    obtain rfl : p₀ = q := Option.some.inj (hp.symm.trans hj)
    rw [condemned_of_written hput] at hcollected
    exact absurd hcollected List.not_mem_nil
  obtain ⟨moves, sh', todo, hrun, hkept⟩ := alone_removes hcollected hget
  have hj' : (s.threads.set i p')[j]? = some q := by rw [List.getElem?_set_ne hij, hj]
  refine ⟨moves.map (j, ·), _, Threads.run_alone (s := ⟨shared, s.threads.set i p'⟩) hj' hrun, ?_⟩
  intro hdead
  obtain ⟨hlt, -⟩ := List.getElem?_eq_some_iff.mp hj'
  exact halive (hdead id oldestActive todo node (List.mem_set hlt _) hkept)

/-- **A compaction removes dead nodes only**, as long as nobody puts a live one under an id it
has collected; after that it need only go on to remove the live one. -/
theorem compaction_removes_dead {store : RecordStore Node} {n : Nat}
    {moves : List (Nat × Move NodeCall)}
    (hs : run nodeThreads.step (Interface.start store n) moves = some s) :
    (Guarded nodeThreads.step SparesCollected (Interface.start store n) moves →
      CompactsDead s) ∧
    ∀ a t, nodeThreads.step s a = some t → ¬ SparesCollected s a →
      ∃ more u, run nodeThreads.step t more = some u ∧ ¬ CompactsDead u :=
  ⟨fun hg => compactsDead_of_run hg hs, fun _ _ hs hwrite => not_compactsDead_of_write hs hwrite⟩

end Compaction

/-! ## Three threads -/

/-- A node is inserted and deleted by a transaction, and a compaction collects it. -/
def collect : List (Nat × Move NodeCall) :=
  [(0, .call (.op (.insertNode [] 0 1))), (0, .step), (0, .step), (0, .step), (0, .step),
    (0, .call (.op (.softDelete 0 5))), (0, .step),
    (1, .call (.compact 10)), (1, .visit 0), (1, .scanned), (1, .step)]

/-- Before the compaction removes it another thread does, and a third one reuses the id. -/
def reuse : List (Nat × Move NodeCall) :=
  [(2, .call (.op (.hardDelete 0))), (2, .step), (2, .step), (2, .step),
    (0, .call (.op (.insertNode [] 0 11))), (0, .step), (0, .step)]

theorem compact_removes_live_node :
    ¬ ∀ (store : RecordStore Node) (n : Nat) (moves : List (Nat × Move NodeCall)) (s : NodeThreads),
      run nodeThreads.step (Interface.start store n) moves = some s → CompactsDead s := by
  intro h
  have hdead := h RecordStore.new 3 (collect ++ reuse) _ rfl 0 10 [] (Node.new 0 [] 0 11)
    (List.mem_cons_of_mem _ List.mem_cons_self) rfl
  exact absurd hdead (by decide)

/-- The compaction alone, up to the node it is about to remove. -/
theorem compaction_removes_dead_one :
    ∃ s, run nodeThreads.step (Interface.start RecordStore.new 2) collect = some s ∧
      CompactsDead s := by
  have hnone : ∀ {s : NodeThreads} {a : Nat × Move NodeCall},
      s.threads.flatMap Pc.condemned = [] → SparesCollected s a := by
    intro s a h _ _ _ _ _ _ _ hmem
    rw [h] at hmem
    exact absurd hmem List.not_mem_nil
  have hg : Guarded nodeThreads.step SparesCollected (Interface.start RecordStore.new 2)
      collect := by
    refine Guarded.cons rfl (hnone rfl) (Guarded.cons rfl (hnone rfl) ?_)
    refine Guarded.cons rfl (hnone rfl) (Guarded.cons rfl (hnone rfl) ?_)
    refine Guarded.cons rfl (hnone rfl) (Guarded.cons rfl (hnone rfl) ?_)
    refine Guarded.cons rfl (hnone rfl) (Guarded.cons rfl (hnone rfl) ?_)
    refine Guarded.cons rfl (hnone rfl) (Guarded.cons rfl (fun h => nomatch h) ?_)
    refine Guarded.cons rfl (fun _ p id node o hp hput _ => ?_) trivial
    have hsend : (.deleteSend 0 (.compact 10 []) : Pc Node Empty) = p := Option.some.inj hp
    subst hsend
    exact absurd hput (by simp [Pc.written])
  obtain ⟨s, hs⟩ : ∃ s, run nodeThreads.step (Interface.start RecordStore.new 2) collect
      = some s := ⟨_, rfl⟩
  exact ⟨s, hs, (compaction_removes_dead hs).1 hg⟩

end LightGraph
