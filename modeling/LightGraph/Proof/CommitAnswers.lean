import LightGraph.Proof.GroupedCommit

/-!
# What commit answers

`commit` of a read transaction returns `Ok` at its first line. The comment there says that there is
nothing to commit; the methods that fill the buffers do not ask whether the transaction writes, and
what they were given is gone. Every other answer is true: an `Ok` behind a write transaction's
buffers, each write of which has then been performed once, an error or a rollback or a drop behind
stores that are as they were.
-/

set_option autoImplicit false

namespace LightGraph

open Lib

section Persistent
variable [Bincode Node] [Bincode Edge] [Bincode (Option Value)]

/-! ## One call on one transaction -/

/-- A commit that has returned `Ok`. -/
theorem Transaction.commit_ok {tx tx' : Transaction} {db db' : Database}
    (h : tx.commit db = .ok (tx', db')) :
    (tx.isWrite = false ∧ tx' = tx ∧ db' = db) ∨
    (tx.isWrite = true ∧ tx.committed = false ∧ tx' = { tx with committed := true } ∧
      ∃ m, db.txManager.advance tx.txId = some m ∧
        db' = (db.withManager m).performAll tx.txId tx.writes) := by
  unfold commit at h
  cases hw : tx.isWrite with
  | false =>
    left
    rw [hw] at h
    obtain ⟨rfl, rfl⟩ := Prod.mk.inj (Except.ok.inj h)
    exact ⟨rfl, rfl, rfl⟩
  | true =>
    right
    cases hc : tx.committed with
    | true =>
      rw [hw, hc] at h
      exact absurd h nofun
    | false =>
      simp only [hw, hc, Bool.not_true, Bool.false_eq_true, if_false, TxManager.commit_eq] at h
      cases hm : db.txManager.advance tx.txId with
      | none =>
        rw [hm] at h
        cases h
      | some m =>
        rw [hm] at h
        obtain ⟨rfl, rfl⟩ := Prod.mk.inj (Except.ok.inj h)
        exact ⟨rfl, rfl, rfl, m, rfl, rfl⟩

omit [Bincode Node] [Bincode Edge] [Bincode (Option Value)] in
/-- A rollback that has returned. -/
theorem Transaction.rollback_some {tx tx' : Transaction} {db db' : Database}
    (h : tx.rollback db = some (tx', db')) :
    (tx.isWrite = false ∧ tx' = tx ∧ db' = db) ∨
    (tx.isWrite = true ∧ tx' = { tx with committed := true } ∧
      ∃ m, db.txManager.advance tx.txId = some m ∧ db' = db.withManager m) := by
  unfold rollback at h
  cases hw : tx.isWrite with
  | false =>
    left
    rw [hw] at h
    obtain ⟨rfl, rfl⟩ := Prod.mk.inj (Option.some.inj h)
    exact ⟨rfl, rfl, rfl⟩
  | true =>
    right
    rw [hw, if_pos rfl, TxManager.rollback] at h
    cases hm : db.txManager.advance tx.txId with
    | none =>
      rw [hm] at h
      cases h
    | some m =>
      rw [hm] at h
      obtain ⟨rfl, rfl⟩ := Prod.mk.inj (Option.some.inj h)
      exact ⟨rfl, rfl, m, rfl, rfl⟩

omit [Bincode Node] [Bincode Edge] [Bincode (Option Value)] in
/-- A drop that has returned. -/
theorem Transaction.drop_some {tx : Transaction} {db db' : Database} (h : tx.drop db = some db') :
    ((tx.isWrite = false ∨ tx.committed = true) ∧ db' = db) ∨
    (tx.isWrite = true ∧ tx.committed = false ∧
      ∃ m, db.txManager.advance tx.txId = some m ∧ db' = db.withManager m) := by
  unfold drop at h
  cases hw : tx.isWrite with
  | false =>
    left
    rw [hw] at h
    exact ⟨.inl rfl, (Option.some.inj h).symm⟩
  | true =>
    cases hc : tx.committed with
    | true =>
      left
      rw [hw, hc] at h
      exact ⟨.inr rfl, (Option.some.inj h).symm⟩
    | false =>
      right
      rw [hw, hc, Bool.not_false, Bool.and_true, if_pos rfl, TxManager.rollback] at h
      cases hm : db.txManager.advance tx.txId with
      | none =>
        rw [hm] at h
        cases h
      | some m =>
        rw [hm] at h
        exact ⟨rfl, rfl, m, rfl, (Option.some.inj h).symm⟩

/-! ## One step of the thread -/

namespace TxSession

/-- What a step does, call by call. -/
inductive Took (s : TxSession) : TxAction → TxSession → Prop
  | beginRead : Took s .beginRead ⟨s.db, s.txs ++ [⟨s.db.beginRead, [], false⟩]⟩
  | beginWrite : Took s .beginWrite ⟨s.db.beginWrite.2, s.txs ++ [⟨s.db.beginWrite.1, [], false⟩]⟩
  | call {i : Nat} {c : TxCall} {h : TxHandle} (handle : s.handle i = some h) :
    Took s (.call i c) ⟨(TxCall.apply (h.tx, s.db) c).2,
      s.txs.set i ⟨(TxCall.apply (h.tx, s.db) c).1, h.issued ++ [(c.issue s.db).1], h.dropped⟩⟩
  | refused {i : Nat} {h : TxHandle} {e : String} (handle : s.handle i = some h)
    (error : h.tx.commit s.db = .error e) : Took s (.commit i) s
  | committed {i : Nat} {h : TxHandle} {tx : Transaction} {db : Database}
    (handle : s.handle i = some h) (ok : h.tx.commit s.db = .ok (tx, db)) :
    Took s (.commit i) ⟨db, s.txs.set i { h with tx }⟩
  | rolledBack {i : Nat} {h : TxHandle} {tx : Transaction} {db : Database}
    (handle : s.handle i = some h) (returns : h.tx.rollback s.db = some (tx, db)) :
    Took s (.rollback i) ⟨db, s.txs.set i { h with tx }⟩
  | dropped {i : Nat} {h : TxHandle} {db : Database} (handle : s.handle i = some h)
    (returns : h.tx.drop s.db = some db) :
    Took s (.drop i) ⟨db, s.txs.set i { h with dropped := true }⟩

theorem step_took {s t : TxSession} {a : TxAction} (h : s.step a = some t) : s.Took a t := by
  cases a with
  | beginRead =>
    obtain rfl := Option.some.inj h
    exact .beginRead
  | beginWrite =>
    obtain rfl := Option.some.inj h
    exact .beginWrite
  | call i c =>
    unfold step at h
    cases hi : s.handle i with
    | none => simp [hi] at h
    | some x =>
      simp only [hi] at h
      obtain rfl := Option.some.inj h
      exact .call hi
  | commit i =>
    unfold step at h
    cases hi : s.handle i with
    | none => simp [hi] at h
    | some x =>
      cases hc : x.tx.commit s.db with
      | error e =>
        simp only [hi, hc] at h
        obtain rfl := Option.some.inj h
        exact .refused hi hc
      | ok p =>
        simp only [hi, hc] at h
        obtain rfl := Option.some.inj h
        exact .committed hi hc
  | rollback i =>
    unfold step at h
    cases hi : s.handle i with
    | none => simp [hi] at h
    | some x =>
      cases hr : x.tx.rollback s.db with
      | none => simp [hi, hr] at h
      | some p =>
        simp only [hi, hr] at h
        obtain rfl := Option.some.inj h
        exact .rolledBack hi hr
  | drop i =>
    unfold step at h
    cases hi : s.handle i with
    | none => simp [hi] at h
    | some x =>
      cases hd : x.tx.drop s.db with
      | none => simp [hi, hd] at h
      | some db =>
        simp only [hi, hd] at h
        obtain rfl := Option.some.inj h
        exact .dropped hi hd

omit [Bincode Node] [Bincode Edge] [Bincode (Option Value)] in
theorem handle_eq_some_iff {s : TxSession} {i : Nat} {h : TxHandle} :
    s.handle i = some h ↔ s.txs[i]? = some h ∧ h.dropped = false := by
  rw [handle, Option.filter_eq_some_iff]
  simp

/-- The transaction whose commit is called and returns `Ok`. -/
def committing (s : TxSession) : TxAction → Option TxHandle
  | .commit i => (s.handle i).filter fun h => (h.tx.commit s.db).isOk
  | _ => none

/-- What the call has done to the stores is what it has answered: behind an `Ok` of a commit all
writes buffered on the transaction, each once and in some order; behind everything else nothing. -/
def Truthful (s : TxSession) (a : TxAction) : Prop :=
  ∀ t, s.step a = some t →
    match s.committing a with
    | some h => ∃ applied : List StoreWrite, applied.Perm h.issued ∧
        t.db.maps = s.db.maps.writeAll h.tx.txId applied
    | none => t.db.maps = s.db.maps

/-- A read transaction is committed only while what is buffered on it, if anything is, would change
nothing. -/
def ReadsIdle (s : TxSession) : TxAction → Prop
  | .commit i => ∀ h, s.handle i = some h → h.tx.isWrite = false →
      ∃ applied : List StoreWrite, applied.Perm h.issued ∧
        s.db.maps.writeAll h.tx.txId applied = s.db.maps
  | _ => True

/-! ## The buffers hold what was issued -/

omit [Bincode Node] [Bincode Edge] [Bincode (Option Value)] in
/-- Grouping loses no write and doubles none. -/
theorem grouped_perm (ws : List StoreWrite) : (grouped ws).Perm ws := by
  classical
  apply List.perm_iff_count.mpr
  intro w
  have hloop : ∀ k, (ws.filter fun w => w.loop = k).count w
      = if w.loop = k then ws.count w else 0 := by
    intro k
    by_cases hk : w.loop = k
    · rw [if_pos hk, List.count_filter (by simpa using hk)]
    · rw [if_neg hk]
      apply List.count_eq_zero_of_not_mem
      intro hmem
      exact hk (by simpa using (List.mem_filter.mp hmem).2)
  -- a write is in the loop it belongs to, and in no other
  simp only [grouped, List.count_append, hloop]
  cases w.loop <;> simp

/-- Every transaction has in its buffers the writes of the calls made on it. -/
def Recorded (s : TxSession) : Prop :=
  ∀ h ∈ s.txs, ∀ k, h.tx.writesOf k = h.issued.filter fun w => w.loop = k

theorem Recorded.step {s t : TxSession} {a : TxAction} (hs : s.Recorded)
    (h : s.step a = some t) : t.Recorded := by
  have hset : ∀ (i : Nat) (x : TxHandle),
      (∀ k, x.tx.writesOf k = x.issued.filter fun w => w.loop = k) →
      ∀ y ∈ s.txs.set i x, ∀ k, y.tx.writesOf k = y.issued.filter fun w => w.loop = k := by
    intro i x hx y hy
    rcases List.mem_or_eq_of_mem_set hy with hold | rfl
    · exact hs y hold
    · exact hx
  have hnew : ∀ tx : Transaction, (∀ k, tx.writesOf k = []) →
      ∀ y ∈ s.txs ++ [⟨tx, [], false⟩], ∀ k,
        y.tx.writesOf k = y.issued.filter fun w => w.loop = k := by
    intro tx htx y hy
    rcases List.mem_append.mp hy with hold | hnew
    · exact hs y hold
    · obtain rfl := List.mem_singleton.mp hnew
      exact htx
  have hmem : ∀ {i : Nat} {x : TxHandle}, s.handle i = some x → x ∈ s.txs := fun hx =>
    List.mem_of_getElem? (handle_eq_some_iff.mp hx).1
  cases step_took h with
  | beginRead => exact hnew _ fun k => by cases k <;> rfl
  | beginWrite => exact hnew _ fun k => by cases k <;> rfl
  | call hi =>
    refine hset _ _ fun k => ?_
    rw [writesOf_apply, hs _ (hmem hi), List.filter_append]
  | refused => exact hs
  | committed hi hok =>
    refine hset _ _ fun k => ?_
    rcases Transaction.commit_ok hok with ⟨-, rfl, -⟩ | ⟨-, -, rfl, -⟩
    · exact hs _ (hmem hi) k
    · exact hs _ (hmem hi) k
  | rolledBack hi hreturns =>
    refine hset _ _ fun k => ?_
    rcases Transaction.rollback_some hreturns with ⟨-, rfl, -⟩ | ⟨-, rfl, -⟩
    · exact hs _ (hmem hi) k
    · exact hs _ (hmem hi) k
  | dropped hi => exact hset _ _ fun k => hs _ (hmem hi) k

omit [Bincode Node] [Bincode Edge] [Bincode (Option Value)] in
theorem Recorded.writes_perm {s : TxSession} (hs : s.Recorded) {i : Nat} {h : TxHandle}
    (hi : s.handle i = some h) : h.tx.writes.Perm h.issued := by
  have hk := hs h (List.mem_of_getElem? (handle_eq_some_iff.mp hi).1)
  have hwrites : h.tx.writes = grouped h.issued := by
    rw [Transaction.writes_eq]
    simp only [hk]
    rfl
  rw [hwrites]
  exact grouped_perm h.issued

/-! ## One call -/

/-- **A call answers the truth exactly when it is not the commit of a read transaction with
something to lose.** -/
theorem truthful_iff {s : TxSession} (hs : s.Recorded) (a : TxAction) :
    s.Truthful a ↔ s.ReadsIdle a := by
  constructor
  · intro htrue
    cases a with
    | commit i =>
      intro h hi hread
      have hok : h.tx.commit s.db = .ok (h.tx, s.db) := by
        rw [Transaction.commit, hread]
        rfl
      have hstep : s.step (.commit i) = some ⟨s.db, s.txs.set i h⟩ := by
        simp only [step, hi, hok]
      have hcommitting : s.committing (.commit i) = some h := by
        rw [committing, hi, Option.filter_some, hok]
        rfl
      have hmaps := htrue _ hstep
      rw [hcommitting] at hmaps
      obtain ⟨applied, hperm, heq⟩ := hmaps
      exact ⟨applied, hperm, heq.symm⟩
    | beginRead => trivial
    | beginWrite => trivial
    | call i c => trivial
    | rollback i => trivial
    | drop i => trivial
  · intro hidle t ht
    cases step_took ht with
    | beginRead => rfl
    | beginWrite => rfl
    | call hi =>
      show (TxCall.apply _ _).2.maps = s.db.maps
      rw [apply_db, maps_issue]
    | @refused i h e hi herror =>
      have hnone : s.committing (.commit i) = none := by
        rw [committing, hi, Option.filter_some, herror]
        rfl
      rw [hnone]
    | @committed i h tx db hi hok =>
      have hcommitting : s.committing (.commit i) = some h := by
        rw [committing, hi, Option.filter_some, hok]
        rfl
      rw [hcommitting]
      rcases Transaction.commit_ok hok with ⟨hread, -, rfl⟩ | ⟨-, -, -, m, -, rfl⟩
      · obtain ⟨applied, hperm, heq⟩ := hidle h hi hread
        exact ⟨applied, hperm, heq.symm⟩
      · refine ⟨h.tx.writes, hs.writes_perm hi, ?_⟩
        rw [Database.performAll_maps]
        rfl
    | rolledBack hi hreturns =>
      rcases Transaction.rollback_some hreturns with ⟨-, -, rfl⟩ | ⟨-, -, m, -, rfl⟩
      · rfl
      · rfl
    | dropped hi hreturns =>
      rcases Transaction.drop_some hreturns with ⟨-, rfl⟩ | ⟨-, -, m, -, rfl⟩
      · rfl
      · rfl

end TxSession

/-- **The answers of a thread's transactions.** -/
theorem commit_answers_iff (db : Database) (actions : List TxAction) :
    Guarded TxSession.step TxSession.Truthful (TxSession.start db) actions ↔
      Guarded TxSession.step TxSession.ReadsIdle (TxSession.start db) actions := by
  have hstart : (TxSession.start db).Recorded := fun h hh => absurd hh List.not_mem_nil
  exact guarded_congr (K := TxSession.Recorded) (fun _ _ _ hs ht => hs.step ht)
    (fun _ a hs => TxSession.truthful_iff hs a) hstart actions

end Persistent

/-- A read transaction is given a write, and its commit says `Ok`. -/
theorem read_commit_drops_writes :
    ¬ ∀ (db : Database) (actions : List TxAction),
      Guarded TxSession.step TxSession.Truthful (TxSession.start db) actions := by
  intro h
  have htrue := h Database.memory [.beginRead, .call 0 (.createNode [1] 0), .commit 0]
  obtain ⟨-, hlater⟩ := htrue
  obtain ⟨-, hlater⟩ := hlater _ rfl
  obtain ⟨hcommit, -⟩ := hlater _ rfl
  obtain ⟨applied, hperm, heq⟩ := hcommit _ rfl
  obtain rfl : applied = [.insertNode 0 [1] 0] := List.perm_singleton.mp hperm
  have hnode := congrArg (fun m => (m.nodes.get 0).isSome) heq
  exact absurd hnode (by decide)

end LightGraph
