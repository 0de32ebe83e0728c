import LightGraph.Proof.Recovery
import LightGraph.Storage.StoreThreads

/-!
# Log and memory under concurrency

A change of the map and the record that describes it are two steps for an insert and for a hard
delete, and the two go in opposite order: an insert sends behind the change, a hard delete before
it. While a thread is between its two steps the log may be out of step with the map at the id;
`Pc.pending` is the ids of which that is so. It is made good by the second step unless somebody
has come in between: the insert's record is no longer what the map holds, or the log has got a
new record for what the hard delete is about to remove. Where neither happens, log and map agree
at the end (`Agrees`); where one of them does, they differ right behind the step.

The loops along the edges' chains change records silently and log them later; what they have yet
to log is pending too, and needs no condition, since they log the record as it stands.
-/

set_option autoImplicit false

namespace LightGraph

open Lib

/-! ## The log of a store -/

section Log
variable {ρ : Type} [Bincode ρ] {log : List LogRecord} {s t : RecordStore ρ}

/-- The map a reopened store gets from the log as it is now; `log` is what the file held before
this store was opened. -/
def RecordStore.replayed (log : List LogRecord) (s : RecordStore ρ) : FiniteMap UInt64 ρ :=
  (log ++ s.history).foldl applyRecord ∅

/-- The flushed file is the log. -/
structure RecordStore.Logging (log : List LogRecord) (s : RecordStore ρ) : Prop where
  wal : ∃ w, s.wal = some w
  file : s.file = magic ++ encodeRecords (log ++ s.history)

namespace RecordStore

omit [Bincode ρ] in
/-- A step that sends nothing. -/
theorem Logging.of_wal (h : s.Logging log) (hwal : t.wal = s.wal) : t.Logging log := by
  have hhist : t.history = s.history := by
    rw [RecordStore.history, RecordStore.history, RecordStore.sent, RecordStore.sent, hwal]
  have hfile : t.file = s.file := by rw [RecordStore.file, RecordStore.file, hwal]
  exact ⟨hwal ▸ h.wal, by rw [hfile, hhist, h.file]⟩

omit [Bincode ρ] in
theorem Logging.send {w : WalLog} (h : s.Logging log) (hs : s.wal = some w) (cmd : WalCmd) :
    ({ s with wal := some (w.send cmd) } : RecordStore ρ).Logging log := by
  refine ⟨⟨_, rfl⟩, ?_⟩
  have hold : w.file = magic ++ encodeRecords (log ++ LightGraph.records w.sent) := by
    have h := h.file
    simpa only [RecordStore.file, RecordStore.history, RecordStore.sent, hs, Option.map_some,
      Option.getD_some] using h
  show (w.send cmd).file = magic ++ encodeRecords (log ++ LightGraph.records (w.sent ++ [cmd]))
  have hsend : (w.send cmd).file = w.file ++ encodeCmds [cmd] := by
    simp only [WalLog.file, WalLog.send, encodeCmds_append, List.append_assoc]
  rw [hsend, hold, encodeCmds_eq, records_append, ← List.append_assoc log,
    encodeRecords_append (log ++ _), List.append_assoc]

theorem replayed_send {w : WalLog} (log : List LogRecord) (hs : s.wal = some w) (cmd : WalCmd) :
    ({ s with wal := some (w.send cmd) } : RecordStore ρ).replayed log
      = (LightGraph.records [cmd]).foldl applyRecord (s.replayed log) := by
  simp only [replayed, history, sent, hs, Option.map_some, Option.getD_some, WalLog.send]
  rw [records_append, ← List.append_assoc, List.foldl_append]

theorem Logging.walInsert (h : s.Logging log) (id : UInt64) (r : ρ) :
    (s.walInsert id r).Logging log := by
  obtain ⟨w, hw⟩ := h.wal
  rw [walInsert_eq hw]
  exact h.send hw _

omit [Bincode ρ] in
theorem Logging.walDelete (h : s.Logging log) (id : UInt64) : (s.walDelete id).Logging log := by
  obtain ⟨w, hw⟩ := h.wal
  rw [walDelete_eq hw]
  exact h.send hw _

theorem Logging.replayed_walInsert (h : s.Logging log) (id : UInt64) (r : ρ) :
    (s.walInsert id r).replayed log = (s.replayed log).put id r := by
  obtain ⟨w, hw⟩ := h.wal
  rw [walInsert_eq hw, replayed_send log hw]
  exact applyRecord_insert _ id r

theorem Logging.replayed_walDelete (h : s.Logging log) (id : UInt64) :
    (s.walDelete id).replayed log = (s.replayed log).remove id := by
  obtain ⟨w, hw⟩ := h.wal
  rw [walDelete_eq hw, replayed_send log hw]
  exact applyRecord_delete _ id

theorem Logging.get_walInsert (h : s.Logging log) (id : UInt64) (r : ρ) (id' : UInt64) :
    ((s.walInsert id r).replayed log).get id'
      = if id' = id then some r else (s.replayed log).get id' := by
  rw [h.replayed_walInsert, FiniteMap.get_put]

theorem modify_of_none {id : UInt64} (h : s.records.get id = none) (f : ρ → ρ) :
    (s.modify id f).1 = s := by
  rw [modify, h]

theorem modify_of_some {id : UInt64} {r : ρ} (h : s.records.get id = some r) (f : ρ → ρ) :
    (s.modify id f).1 = { s with records := s.records.put id (f r) }.walInsert id (f r) := by
  rw [modify, h]

end RecordStore
end Log

/-! ## What is pending -/

section Agreement
variable {ρ κ γ : Type}

/-- The ids at which a thread is between a change and its record; `dirty` says it of an edit. -/
def Pc.pending (dirty : κ → List UInt64) : Pc ρ κ → List UInt64
  | .insertSend id _ => [id]
  | .deleteRemove id _ => [id]
  | .edit k => dirty k
  | _ => []

/-- What `dirty` has to say of the edits: an id that is changed is dirty until it is logged, or
found to be gone. -/
structure Interface.Tracks (I : Interface ρ κ γ) (dirty : κ → List UInt64) : Prop where
  absent : ∀ {k id absent present}, I.edit k = .access id absent present →
    ∀ x ∈ dirty k, x = id ∨ x ∈ (Pc.ofEdit absent : Pc ρ κ).pending dirty
  present : ∀ {k id absent present}, I.edit k = .access id absent present → ∀ r,
    (∀ x ∈ dirty k, x ∈ (Pc.ofEdit (present r).2 : Pc ρ κ).pending dirty) ∧
    ((present r).1 = r ∨ id ∈ (Pc.ofEdit (present r).2 : Pc ρ κ).pending dirty)
  persist : ∀ {k id next}, I.edit k = .persist id next →
    ∀ x ∈ dirty k, x = id ∨ x ∈ (Pc.ofEdit next : Pc ρ κ).pending dirty

variable [Bincode ρ]

/-- Nobody has come in between the two steps of an insert or of a hard delete: the map still
holds what the insert is about to log, and what a hard delete is about to remove is not in the
log. -/
def Pc.InLogOrder (log : List LogRecord) (sh : Shared ρ) : Pc ρ κ → Prop
  | .insertSend id r => sh.store.records.get id = some r
  | .deleteRemove id _ =>
    (sh.store.records.get id).isSome → (sh.store.replayed log).get id = none
  | _ => True

/-- The next step of a thread is in log order. -/
def InLogOrder (log : List LogRecord) (s : Threads (Shared ρ) (Pc ρ κ)) (a : Nat × Move γ) : Prop :=
  ∀ p, s.threads[a.1]? = some p → p.InLogOrder log s.shared

theorem InLogOrder.of_get {log : List LogRecord} {s : Threads (Shared ρ) (Pc ρ κ)}
    {a : Nat × Move γ} {p : Pc ρ κ} (hp : s.threads[a.1]? = some p)
    (h : p.InLogOrder log s.shared) : InLogOrder log s a :=
  fun _ hq => Option.some.inj (hp.symm.trans hq) ▸ h

/-! ## One step, at one id -/

variable {I : Interface ρ κ γ} {dirty : κ → List UInt64} {log : List LogRecord}
  {sh sh' : Shared ρ} {p p' : Pc ρ κ} {m : Move γ}

theorem Interface.Fires.logging (h : I.Fires sh p m sh' p') (hlog : sh.store.Logging log) :
    sh'.store.Logging log := by
  cases h with
  | insertSend => exact hlog.walInsert _ _
  | deleteSend => exact hlog.walDelete _
  | persist hedit hget => exact hlog.walInsert _ _
  | @modify id f =>
    show (sh.store.modify id f).1.Logging log
    cases hget : sh.store.records.get id with
    | none =>
      rw [RecordStore.modify_of_none hget]
      exact hlog
    | some r =>
      rw [RecordStore.modify_of_some hget]
      refine RecordStore.Logging.walInsert (hlog.of_wal ?_) _ _
      rfl
  | _ => exact hlog.of_wal rfl

/-- Nothing has changed at an id, and the mover has not let go of it unless it is gone. -/
structure Untouched (dirty : κ → List UInt64) (log : List LogRecord) (sh : Shared ρ) (p : Pc ρ κ)
    (sh' : Shared ρ) (p' : Pc ρ κ) (id : UInt64) : Prop where
  replayed : (sh'.store.replayed log).get id = (sh.store.replayed log).get id
  records : sh'.store.records.get id = sh.store.records.get id
  pending : id ∈ p.pending dirty → id ∈ p'.pending dirty ∨ sh.store.records.get id = none

/-- Log and map agree at an id. -/
def AgreeAt (log : List LogRecord) (sh : Shared ρ) (id : UInt64) : Prop :=
  (sh.store.replayed log).get id = sh.store.records.get id

/-- What a step leaves at an id: log and map agree, or the mover is between change and record, or
nothing has changed. -/
theorem Interface.Fires.at_id (h : I.Fires sh p m sh' p') (ht : I.Tracks dirty)
    (hlog : sh.store.Logging log) (hg : p.InLogOrder log sh) (id : UInt64) :
    AgreeAt log sh' id ∨
    (id ∈ p'.pending dirty ∧ sh'.store.records.get id ≠ none) ∨
    Untouched dirty log sh p sh' p' id := by
  have hsame : ∀ {q : Pc ρ κ}, (id ∈ p.pending dirty → id ∈ q.pending dirty ∨
      sh.store.records.get id = none) → Untouched dirty log sh p sh q id := fun hp => ⟨rfl, rfl, hp⟩
  cases h with
  | @insertPut id' r =>
    by_cases heq : id = id'
    · subst heq
      exact Or.inr (Or.inl ⟨List.mem_singleton_self id, by simp⟩)
    · refine Or.inr (Or.inr ⟨rfl, ?_, fun hmem => absurd hmem List.not_mem_nil⟩)
      exact FiniteMap.get_put_ne _ _ heq
  | @insertSend id' r =>
    by_cases heq : id = id'
    · subst heq
      have hmap : sh.store.records.get id = some r := hg
      exact Or.inl (by simp [AgreeAt, hlog.get_walInsert, hmap])
    · refine Or.inr (Or.inr ⟨?_, by simp, fun hmem => ?_⟩)
      · rw [hlog.get_walInsert, if_neg heq]
      · exact absurd (List.mem_singleton.mp hmem) heq
  | @modify id' f =>
    cases hget : sh.store.records.get id' with
    | none =>
      rw [RecordStore.modify_of_none hget]
      exact Or.inr (Or.inr (hsame fun hmem => absurd hmem List.not_mem_nil))
    | some r =>
      rw [RecordStore.modify_of_some hget]
      have hlog' : ({ sh.store with records := sh.store.records.put id' (f r) }).Logging log :=
        hlog.of_wal rfl
      by_cases heq : id = id'
      · subst heq
        exact Or.inl (by simp [AgreeAt, hlog'.get_walInsert])
      · refine Or.inr (Or.inr ⟨?_, ?_, fun hmem => absurd hmem List.not_mem_nil⟩)
        · rw [hlog'.get_walInsert, if_neg heq]
          rfl
        · rw [RecordStore.walInsert_records]
          exact FiniteMap.get_put_ne _ _ heq
  | @deleteSend id' d =>
    by_cases heq : id = id'
    · subst heq
      cases hget : sh.store.records.get id with
      | none => exact Or.inl (by simp [AgreeAt, hlog.replayed_walDelete, hget])
      | some r => exact Or.inr (Or.inl ⟨List.mem_singleton_self id, by simp [hget]⟩)
    · refine Or.inr (Or.inr ⟨?_, by simp, fun hmem => absurd hmem List.not_mem_nil⟩)
      rw [hlog.replayed_walDelete, FiniteMap.get_remove_ne _ heq]
  | @deleteRemove id' d r hget =>
    by_cases heq : id = id'
    · subst heq
      have hgone : (sh.store.replayed log).get id = none := hg (by rw [hget]; rfl)
      exact Or.inl (hgone.trans (FiniteMap.get_remove_self _ _).symm)
    · refine Or.inr (Or.inr ⟨rfl, FiniteMap.get_remove_ne _ heq, fun hmem => ?_⟩)
      exact absurd (List.mem_singleton.mp hmem) heq
  | @deleteAbsent id' d hget =>
    refine Or.inr (Or.inr (hsame fun hmem => Or.inr ?_))
    rw [List.mem_singleton.mp hmem, hget]
  | @editAbsent k id' absent present hedit hget =>
    refine Or.inr (Or.inr (hsame fun hmem => ?_))
    rcases ht.absent hedit id hmem with rfl | hmem
    · exact Or.inr hget
    · exact Or.inl hmem
  | @editPresent k id' absent present r hedit hget =>
    obtain ⟨hkeep, hdirty⟩ := ht.present hedit r
    by_cases heq : id = id'
    · subst heq
      rcases hdirty with hsilent | hdirty
      · refine Or.inr (Or.inr ⟨rfl, ?_, fun hmem => Or.inl (hkeep id hmem)⟩)
        rw [hsilent, hget]
        exact FiniteMap.get_put_self _ _ _
      · exact Or.inr (Or.inl ⟨hdirty, by simp⟩)
    · refine Or.inr (Or.inr ⟨rfl, ?_, fun hmem => Or.inl (hkeep id hmem)⟩)
      exact FiniteMap.get_put_ne _ _ heq
  | @persistAbsent k id' next hedit hget =>
    refine Or.inr (Or.inr (hsame fun hmem => ?_))
    rcases ht.persist hedit id hmem with rfl | hmem
    · exact Or.inr hget
    · exact Or.inl hmem
  | @persist k id' next r hedit hget =>
    by_cases heq : id = id'
    · subst heq
      exact Or.inl (by simp [AgreeAt, hlog.get_walInsert, hget])
    · refine Or.inr (Or.inr ⟨?_, by simp, fun hmem => ?_⟩)
      · rw [hlog.get_walInsert, if_neg heq]
      · exact Or.inl ((ht.persist hedit id hmem).resolve_left heq)
  | call | insertWithId | insertPop | insertEmpty | insertFetch | allocPop | allocEmpty
  | allocFetch | deletePush | visit | scanned =>
    exact Or.inr (Or.inr ⟨rfl, rfl, fun hmem => absurd hmem List.not_mem_nil⟩)

/-! ## Any number of threads -/

variable {s t : Threads (Shared ρ) (Pc ρ κ)} {a : Nat × Move γ}

/-- Log and map agree, but for ids that are there and that some thread has yet to log. -/
structure Agrees (dirty : κ → List UInt64) (log : List LogRecord)
    (s : Threads (Shared ρ) (Pc ρ κ)) : Prop where
  logging : s.shared.store.Logging log
  agree : ∀ id, AgreeAt log s.shared id ∨
    id ∈ s.threads.flatMap (Pc.pending dirty) ∧ s.shared.store.records.get id ≠ none

theorem Agrees.start {store : RecordStore ρ} (h : store.Synced log) (n : Nat) :
    Agrees dirty log (Interface.start store n : Threads (Shared ρ) (Pc ρ κ)) :=
  ⟨⟨h.wal, h.file⟩, fun id => Or.inl (congrArg (FiniteMap.get · id) h.records.symm)⟩

/-- **A step in log order** keeps log and map together. -/
theorem Agrees.step (h : Agrees dirty log s) (ht : I.Tracks dirty) (hg : InLogOrder log s a)
    (hs : I.step s a = some t) : Agrees dirty log t := by
  obtain ⟨i, m⟩ := a
  obtain ⟨p, shared, p', hp, hexec, rfl⟩ := Threads.step_inv hs
  have hfires := Interface.exec_fires hexec
  refine ⟨hfires.logging h.logging, fun id => ?_⟩
  rcases hfires.at_id ht h.logging (hg p hp) id with hagree | ⟨hheld, hthere⟩ | hsame
  · exact Or.inl hagree
  · exact Or.inr ⟨Threads.held_of_mover _ hp hheld, hthere⟩
  · rcases h.agree id with hagree | ⟨hheld, hthere⟩
    · left
      rw [AgreeAt, hsame.replayed, hsame.records]
      exact hagree
    · right
      refine ⟨?_, by rw [hsame.records]; exact hthere⟩
      rcases Threads.held_step (Pc.pending dirty) hp p' hheld with hheld | ⟨hown, hlet⟩
      · exact hheld
      · exact absurd (hsame.pending hown) (not_or.mpr ⟨hlet, hthere⟩)

/-- With every call returned there is nothing pending. -/
theorem Agrees.idle (h : Agrees dirty log s) (hidle : ∀ p ∈ s.threads, p = .idle) :
    s.shared.store.Synced log := by
  refine ⟨h.logging.wal, h.logging.file, FiniteMap.ext fun id => ?_⟩
  rcases h.agree id with hagree | ⟨hheld, -⟩
  · exact hagree.symm
  · obtain ⟨p, hp, hmem⟩ := List.mem_flatMap.mp hheld
    rw [hidle p hp] at hmem
    exact absurd hmem List.not_mem_nil

theorem synced_of_run {store : RecordStore ρ} {n : Nat} {moves : List (Nat × Move γ)}
    (ht : I.Tracks dirty) (h : store.Synced log)
    (hg : Guarded I.step (InLogOrder log) (Interface.start store n) moves)
    (hs : run I.step (Interface.start store n) moves = some s)
    (hidle : ∀ p ∈ s.threads, p = .idle) : s.shared.store.Synced log :=
  have hagrees : Agrees dirty log s :=
    guarded_invariant (fun _ _ _ h hg hs => Agrees.step h ht hg hs) (Agrees.start h n) hg hs
  hagrees.idle hidle

theorem logging_step (h : s.shared.store.Logging log) (hs : I.step s a = some t) :
    t.shared.store.Logging log := by
  obtain ⟨i, m⟩ := a
  obtain ⟨p, shared, p', -, hexec, rfl⟩ := Threads.step_inv hs
  exact (Interface.exec_fires hexec).logging h

/-- Behind a step out of log order they differ. -/
theorem differ_of_step (hlog : s.shared.store.Logging log) (hs : I.step s a = some t)
    (hout : ¬ InLogOrder log s a) :
    t.shared.store.replayed log ≠ t.shared.store.records := by
  obtain ⟨i, m⟩ := a
  obtain ⟨p, shared, p', hp, hexec, rfl⟩ := Threads.step_inv hs
  have hp_out : ¬ p.InLogOrder log s.shared := by
    intro hin
    refine hout fun q hq => ?_
    rw [show i = (i, m).1 from rfl, hq] at hp
    exact Option.some.inj hp ▸ hin
  intro heq
  have hall : ∀ id, (shared.store.replayed log).get id = shared.store.records.get id :=
    fun id => by rw [heq]
  cases Interface.exec_fires hexec with
  | @insertSend id r =>
    have hid := hall id
    rw [hlog.get_walInsert, if_pos rfl, RecordStore.walInsert_records] at hid
    exact hp_out hid.symm
  | @deleteRemove id d r hget =>
    have hid := hall id
    exact hp_out fun _ => hid.trans (FiniteMap.get_remove_self _ _)
  | @deleteAbsent id d hget =>
    exact hp_out fun hsome => absurd hsome (by rw [hget]; simp)
  | _ => exact hp_out trivial

/-- Log and memory agree when all calls have returned, in every run in log order; and they differ
behind a step out of log order. -/
def AgreesInLogOrder (I : Interface ρ κ γ) (agrees : RecordStore ρ → Prop) (log : List LogRecord)
    (store : RecordStore ρ) : Prop :=
  ∀ (n : Nat) (moves : List (Nat × Move γ)) (s : Threads (Shared ρ) (Pc ρ κ)),
    run I.step (Interface.start store n) moves = some s →
    (Guarded I.step (InLogOrder log) (Interface.start store n) moves →
      (∀ p ∈ s.threads, p = .idle) → (∀ r ∈ log ++ s.shared.store.history, r.Fits) →
      agrees s.shared.store) ∧
    ∀ a t, I.step s a = some t → ¬ InLogOrder log s a →
      (∀ r ∈ log ++ t.shared.store.history, r.Fits) → ¬ agrees t.shared.store

theorem agreesInLogOrder_of_synced {store : RecordStore ρ} {agrees : RecordStore ρ → Prop}
    (ht : I.Tracks dirty) (h : store.Synced log)
    (hagrees : ∀ s : RecordStore ρ, s.Logging log → (∀ r ∈ log ++ s.history, r.Fits) →
      (agrees s ↔ s.replayed log = s.records)) :
    AgreesInLogOrder I agrees log store := by
  intro n moves s hs
  constructor
  · intro hg hidle hfit
    have hend := synced_of_run ht h hg hs hidle
    exact (hagrees _ ⟨hend.wal, hend.file⟩ hfit).mpr hend.records.symm
  · intro a t hstep hout hfit
    have hlog : s.shared.store.Logging log :=
      run_invariant (I := fun s => s.shared.store.Logging log)
        (fun _ _ _ h hstep => logging_step h hstep) ⟨h.wal, h.file⟩ hs
    rw [hagrees _ (logging_step hlog hstep) hfit]
    exact differ_of_step hlog hstep hout

end Agreement

/-! ## The two stores -/

theorem nodeThreads_tracks [Bincode Node] : nodeThreads.Tracks fun _ => [] :=
  ⟨fun {k} => k.elim, fun {k} => k.elim, fun {k} => k.elim⟩

/-- What the loops along the chains have yet to log. -/
def EdgeEdit.dirty : EdgeEdit → List EdgeId
  | .linkOut _ _ _ => []
  | .linkIn newEdge _ => [newEdge]
  | .unlinkGet _ _ _ => []
  | .seek _ _ _ _ _ preds => preds
  | .persist id rest => id :: rest

namespace EdgeEdit

/-! Behind a loop there is to log what it has changed. -/

theorem pending_persistAll (ids : List EdgeId) :
    (Pc.ofEdit (persistAll ids) : Pc Edge EdgeEdit).pending dirty = ids := by
  cases ids <;> rfl

theorem pending_loop {side : ChainSide} {edgeId : EdgeId} {edge : Edge}
    {cur dstFirstIn : EdgeId} {preds : List EdgeId} {after : Option EdgeEdit}
    (h : (Pc.ofEdit after : Pc Edge EdgeEdit).pending dirty = preds) :
    (Pc.ofEdit (loop side edgeId edge cur dstFirstIn preds after) : Pc Edge EdgeEdit).pending dirty
      = preds := by
  unfold loop
  split
  · exact h
  · rfl

theorem pending_unlinkIn (edgeId : EdgeId) (edge : Edge) (dstFirstIn : EdgeId)
    (preds : List EdgeId) :
    (Pc.ofEdit (unlinkIn edgeId edge dstFirstIn preds) : Pc Edge EdgeEdit).pending dirty
      = preds := by
  unfold unlinkIn
  split
  · exact pending_persistAll preds
  · exact pending_loop (pending_persistAll preds)

theorem pending_behind (side : ChainSide) (edgeId : EdgeId) (edge : Edge) (dstFirstIn : EdgeId)
    (preds : List EdgeId) :
    (Pc.ofEdit (behind side edgeId edge dstFirstIn preds) : Pc Edge EdgeEdit).pending dirty
      = preds := by
  cases side with
  | outgoing => exact pending_unlinkIn edgeId edge dstFirstIn preds
  | incoming => exact pending_persistAll preds

end EdgeEdit

/-- **The edits log every edge they change**, or have it in hand. -/
theorem edgeThreads_tracks [Bincode Edge] : edgeThreads.Tracks EdgeEdit.dirty where
  absent := by
    intro k id absent present hedit x hx
    cases k with
    | linkOut newEdge srcFirstOut dstFirstIn => exact absurd hx List.not_mem_nil
    | linkIn newEdge dstFirstIn =>
      obtain ⟨rfl, rfl, rfl⟩ := EditStep.access.inj hedit
      exact Or.inl (List.mem_singleton.mp hx)
    | unlinkGet edgeId srcFirstOut dstFirstIn => exact absurd hx List.not_mem_nil
    | seek side edgeId edge cur dstFirstIn preds =>
      obtain ⟨rfl, rfl, rfl⟩ := EditStep.access.inj hedit
      right
      rw [EdgeEdit.pending_behind]
      exact hx
    | persist id rest => exact absurd hedit (by simp [edgeThreads, EdgeEdit.step])
  present := by
    intro k id absent present hedit r
    cases k with
    | linkOut newEdge srcFirstOut dstFirstIn =>
      obtain ⟨rfl, rfl, rfl⟩ := EditStep.access.inj hedit
      exact ⟨fun x hx => absurd hx List.not_mem_nil, Or.inr (List.mem_singleton_self _)⟩
    | linkIn newEdge dstFirstIn =>
      obtain ⟨rfl, rfl, rfl⟩ := EditStep.access.inj hedit
      exact ⟨fun x hx => hx, Or.inr (List.mem_singleton_self _)⟩
    | unlinkGet edgeId srcFirstOut dstFirstIn =>
      obtain ⟨rfl, rfl, rfl⟩ := EditStep.access.inj hedit
      exact ⟨fun x hx => absurd hx List.not_mem_nil, Or.inl rfl⟩
    | seek side edgeId edge cur dstFirstIn preds =>
      obtain ⟨rfl, rfl, rfl⟩ := EditStep.access.inj hedit
      dsimp only
      split
      · -- the predecessor is changed, and noted
        rw [EdgeEdit.pending_behind]
        exact ⟨fun x hx => List.mem_append_left _ hx,
          Or.inr (List.mem_append_right _ (List.mem_singleton_self _))⟩
      · rw [EdgeEdit.pending_loop (EdgeEdit.pending_behind side edgeId edge dstFirstIn preds)]
        exact ⟨fun x hx => hx, Or.inl rfl⟩
    | persist id rest => exact absurd hedit (by simp [edgeThreads, EdgeEdit.step])
  persist := by
    intro k id next hedit x hx
    cases k with
    | persist id' rest =>
      obtain ⟨rfl, rfl⟩ := EditStep.persist.inj hedit
      rw [EdgeEdit.pending_persistAll]
      exact List.mem_cons.mp hx
    | linkOut newEdge srcFirstOut dstFirstIn =>
      exact absurd hedit (by simp [edgeThreads, EdgeEdit.step])
    | linkIn newEdge dstFirstIn => exact absurd hedit (by simp [edgeThreads, EdgeEdit.step])
    | unlinkGet edgeId srcFirstOut dstFirstIn =>
      exact absurd hedit (by simp [edgeThreads, EdgeEdit.step])
    | seek side edgeId edge cur dstFirstIn preds =>
      exact absurd hedit (by simp [edgeThreads, EdgeEdit.step])

/-- Reopening the flushed file gives the map in memory. -/
def NodeStore.LogAgrees [Bincode Node] (s : RecordStore Node) : Prop :=
  ∃ t, NodeStore.open s.file = .ok t ∧ t.records = s.records

def EdgeStore.LogAgrees [Bincode Edge] (s : RecordStore Edge) : Prop :=
  ∃ t, EdgeStore.open s.file = .ok t ∧ t.records = s.records

theorem NodeStore.logAgrees_iff [Bincode Node] (log : List LogRecord) {s : RecordStore Node}
    (h : s.Logging log) (hfit : ∀ r ∈ log ++ s.history, r.Fits) :
    NodeStore.LogAgrees s ↔ s.replayed log = s.records := by
  obtain ⟨t, ht, hrec, -⟩ := NodeStore.open_eq (LogHolds.encode hfit)
  rw [NodeStore.LogAgrees, h.file, ht]
  constructor
  · rintro ⟨u, hu, hsame⟩
    rw [RecordStore.replayed, ← hrec, Except.ok.inj hu, hsame]
  · exact fun hsame => ⟨t, rfl, hrec.trans hsame⟩

theorem EdgeStore.logAgrees_iff [Bincode Edge] (log : List LogRecord) {s : RecordStore Edge}
    (h : s.Logging log) (hfit : ∀ r ∈ log ++ s.history, r.Fits) :
    EdgeStore.LogAgrees s ↔ s.replayed log = s.records := by
  obtain ⟨t, ht, hrec, -⟩ := EdgeStore.open_eq (LogHolds.encode hfit)
  rw [EdgeStore.LogAgrees, h.file, ht]
  constructor
  · rintro ⟨u, hu, hsame⟩
    rw [RecordStore.replayed, ← hrec, Except.ok.inj hu, hsame]
  · exact fun hsame => ⟨t, rfl, hrec.trans hsame⟩

/-- **Log and memory agree** when all calls have returned, as long as nobody comes in between the
two steps of an insert or of a hard delete; for stores opened on what earlier runs have left. -/
theorem log_agrees_with_memory [Bincode Node] [Bincode Edge] :
    (∀ (file : Bytes) (log : List LogRecord) (s₀ : NodeStore), LogHolds file log →
      NodeStore.open file = .ok s₀ →
      AgreesInLogOrder nodeThreads NodeStore.LogAgrees log s₀.toRecordStore) ∧
    (∀ (file : Bytes) (log : List LogRecord) (s₀ : EdgeStore), LogHolds file log →
      EdgeStore.open file = .ok s₀ →
      AgreesInLogOrder edgeThreads EdgeStore.LogAgrees log s₀) :=
  ⟨fun _ log _ hfile hopen => agreesInLogOrder_of_synced nodeThreads_tracks
      (NodeStore.open_synced hfile hopen).1 fun _ => NodeStore.logAgrees_iff log,
    fun _ log _ hfile hopen => agreesInLogOrder_of_synced edgeThreads_tracks
      (EdgeStore.open_synced hfile hopen).1 fun _ => EdgeStore.logAgrees_iff log⟩

/-! ## Two threads -/

/-- A node is put into the map, and deleted for good before its INSERT is sent. -/
def deletedBeforeSent : List (Nat × Move NodeCall) :=
  [(0, .call (.op (.insertNode [1] 0 1))), (0, .step), (0, .step), (0, .step),
    (1, .call (.op (.hardDelete 0))), (1, .step), (1, .step), (1, .step)]

/-- The log brings the deleted node back. -/
theorem late_insert_revives_node :
    ¬ ∀ (n : Nat) (moves : List (Nat × Move NodeCall)) (s : Threads (Shared Node) (Pc Node Empty)),
      run nodeThreads.step (Interface.start NodeStore.fresh.toRecordStore n) moves = some s →
      (∀ p ∈ s.threads, p = .idle) → (∀ r ∈ s.shared.store.history, r.Fits) →
      NodeStore.LogAgrees s.shared.store := by
  intro h
  have hidle : ∀ p ∈ [(.idle : Pc Node Empty), .idle], p = .idle := by simp
  have hagrees := h 2 (deletedBeforeSent ++ [(0, .step)]) _ rfl hidle (by decide)
  have hsame := (NodeStore.logAgrees_iff [] ⟨⟨_, rfl⟩, rfl⟩ (by decide)).mp hagrees
  exact absurd (congrArg (FiniteMap.get · 0) hsame) (by decide)

/-- A node is inserted by one thread and deleted by another. -/
def insertThenDelete : List (Nat × Move NodeCall) :=
  [(0, .call (.op (.insertNode [1] 0 1))), (0, .step), (0, .step), (0, .step), (0, .step),
    (1, .call (.op (.hardDelete 0))), (1, .step), (1, .step), (1, .step)]

/-- An edge is inserted by one thread and linked by another. -/
def insertThenLink : List (Nat × Move EdgeCall) :=
  [(0, .call (.op (.insertEdge 0 1 7 0 1))), (0, .step), (0, .step), (0, .step), (0, .step),
    (1, .call (.op (.linkIntoChains 0 nullEdge nullEdge))), (1, .step), (1, .step), (1, .step)]

theorem log_agrees_with_memory_two :
    (∃ s, run nodeThreads.step (Interface.start NodeStore.fresh.toRecordStore 2) insertThenDelete
        = some s ∧ NodeStore.LogAgrees s.shared.store) ∧
    ∃ s, run edgeThreads.step (Interface.start EdgeStore.fresh 2) insertThenLink = some s ∧
      EdgeStore.LogAgrees s.shared.store := by
  have hnode : ∀ p ∈ [(.idle : Pc Node Empty), .idle], p = .idle := by simp
  have hedge : ∀ p ∈ [(.idle : Pc Edge EdgeEdit), .idle], p = .idle := by simp
  refine ⟨⟨_, rfl, (log_agrees_with_memory.1 [] [] _ .empty NodeStore.open_nil 2
      insertThenDelete _ rfl).1 ?_ hnode (by decide)⟩,
    _, rfl, (log_agrees_with_memory.2 [] [] _ .empty EdgeStore.open_nil 2
      insertThenLink _ rfl).1 ?_ hedge (by decide)⟩
  · refine Guarded.cons rfl (.of_get rfl trivial) (Guarded.cons rfl (.of_get rfl trivial) ?_)
    refine Guarded.cons rfl (.of_get rfl trivial) (Guarded.cons rfl (.of_get rfl trivial) ?_)
    refine Guarded.cons rfl (.of_get rfl rfl) (Guarded.cons rfl (.of_get rfl trivial) ?_)
    refine Guarded.cons rfl (.of_get rfl trivial) ?_
    refine Guarded.cons rfl (.of_get rfl fun _ => by decide) ?_
    exact Guarded.cons rfl (.of_get rfl trivial) trivial
  · refine Guarded.cons rfl (.of_get rfl trivial) (Guarded.cons rfl (.of_get rfl trivial) ?_)
    refine Guarded.cons rfl (.of_get rfl trivial) (Guarded.cons rfl (.of_get rfl trivial) ?_)
    refine Guarded.cons rfl (.of_get rfl rfl) (Guarded.cons rfl (.of_get rfl trivial) ?_)
    refine Guarded.cons rfl (.of_get rfl trivial) (Guarded.cons rfl (.of_get rfl trivial) ?_)
    exact Guarded.cons rfl (.of_get rfl trivial) trivial

end LightGraph
