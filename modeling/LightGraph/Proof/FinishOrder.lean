import LightGraph.Proof.CommitAnswers

/-!
# A thread that waits for itself

`rollback` spins without a limit until the counter stands just before its ticket, and `drop` calls
it for a write transaction that has not been ended. With one thread there is nobody else to move
the counter: the transactions are finished in the order they were begun, or never. Rust drops
locals the other way round.

A rollback is not guarded by the `committed` flag either. Behind a commit, or a second time, its
turn has gone by, and the loop never ends.
-/

set_option autoImplicit false

namespace LightGraph

open Lib

namespace TxSession

/-- A rollback or a drop does nothing, or the counter stands just before its ticket. -/
def Returns (s : TxSession) : TxAction → Prop
  | .rollback i => ∀ h, s.handle i = some h →
      h.tx.rollback s.db = some (h.tx, s.db) ∨ s.db.txManager.committedTxId = h.tx.txId - 1
  | .drop i => ∀ h, s.handle i = some h →
      h.tx.drop s.db = some s.db ∨ s.db.txManager.committedTxId = h.tx.txId - 1
  | _ => True

/-- The transactions begun before the `i`-th one have all ended. -/
def EarlierEnded (s : TxSession) (i : Nat) : Prop :=
  ∀ j h, j < i → s.txs[j]? = some h → h.Ended

/-- A transaction is rolled back before it has ended and after all earlier ones have; it is dropped
after it has ended, or after all earlier ones have. -/
def InOrder (s : TxSession) : TxAction → Prop
  | .rollback i => ∀ h, s.handle i = some h → ¬ h.Ended ∧ s.EarlierEnded i
  | .drop i => ∀ h, s.handle i = some h → h.Ended ∨ s.EarlierEnded i
  | _ => True

/-! ## The state of a thread -/

/-- Write transactions with consecutive tickets behind `base`, of which the first `k` have
ended. -/
structure InTurn (base : TxId) (k : Nat) (s : TxSession) : Prop where
  committed : s.db.txManager.committedTxId = base + UInt64.ofNat k
  next : s.db.txManager.nextTxId = base + 1 + UInt64.ofNat s.txs.length
  le : k ≤ s.txs.length
  isWrite : ∀ (i : Nat) (h : TxHandle), s.txs[i]? = some h → h.tx.isWrite = true
  txId : ∀ (i : Nat) (h : TxHandle), s.txs[i]? = some h → h.tx.txId = base + 1 + UInt64.ofNat i
  ended : ∀ (i : Nat) (h : TxHandle), s.txs[i]? = some h → (h.Ended ↔ i < k)

variable {base : TxId} {k : Nat} {s t : TxSession}

theorem InTurn.start {db : Database} (h : db.Idle) :
    InTurn db.txManager.committedTxId 0 (start db) := by
  refine ⟨(UInt64.add_zero _).symm, h.trans (UInt64.add_zero _).symm, le_refl 0, ?_, ?_, ?_⟩
  all_goals exact fun i h hi => absurd hi (by simp [TxSession.start])

theorem add_one_add_ofNat (base : TxId) (n : Nat) :
    base + 1 + UInt64.ofNat n = base + UInt64.ofNat (n + 1) := by
  rw [UInt64.add_assoc, UInt64.add_comm 1, UInt64.ofNat_add]
  rfl

/-- Whose turn it is. -/
theorem InTurn.turn_iff (hs : s.InTurn base k) (hfew : s.txs.length < 2 ^ 64) {i : Nat}
    {h : TxHandle} (hi : s.txs[i]? = some h) :
    s.db.txManager.committedTxId = h.tx.txId - 1 ↔ i = k := by
  have hlt := (List.getElem?_eq_some_iff.mp hi).1
  have hle := hs.le
  rw [hs.committed, hs.txId i h hi, UInt64.add_assoc, UInt64.add_comm 1, ← UInt64.add_assoc,
    UInt64.add_sub_cancel, UInt64.add_right_inj, ← UInt64.toNat_inj, UInt64.toNat_ofNat',
    UInt64.toNat_ofNat', Nat.mod_eq_of_lt (by omega), Nat.mod_eq_of_lt (by omega)]
  exact eq_comm

/-- All before the `i`-th one have ended when the counter has come that far. -/
theorem InTurn.earlierEnded_iff (hs : s.InTurn base k) {i : Nat} (hi : i < s.txs.length) :
    s.EarlierEnded i ↔ i ≤ k := by
  constructor
  · intro h
    by_contra hlt
    have hk : k < s.txs.length := by omega
    have hended := h k s.txs[k] (by omega) (List.getElem?_eq_getElem hk)
    exact absurd ((hs.ended k _ (List.getElem?_eq_getElem hk)).mp hended) (lt_irrefl k)
  · intro hle j h hj hget
    exact (hs.ended j h hget).mpr (by omega)

/-! ## One step -/

/-- A begin hands out the next ticket. -/
theorem InTurn.begin (hs : s.InTurn base k) :
    InTurn base k ⟨s.db.beginWrite.2, s.txs ++ [⟨s.db.beginWrite.1, [], false⟩]⟩ := by
  have hget : ∀ (i : Nat) (h : TxHandle),
      (s.txs ++ [⟨s.db.beginWrite.1, [], false⟩])[i]? = some h →
        s.txs[i]? = some h ∨ (i = s.txs.length ∧ h = ⟨s.db.beginWrite.1, [], false⟩) := by
    intro i h hi
    rw [List.getElem?_append] at hi
    split at hi
    · exact .inl hi
    · rw [List.getElem?_singleton] at hi
      split at hi
      · exact .inr ⟨by omega, (Option.some.inj hi).symm⟩
      · exact absurd hi nofun
  have hle := hs.le
  refine ⟨hs.committed, ?_, ?_, ?_, ?_, ?_⟩
  · show s.db.txManager.nextTxId + 1 = _
    rw [hs.next, List.length_append, List.length_singleton, UInt64.ofNat_add, ← UInt64.add_assoc]
    rfl
  · show k ≤ (s.txs ++ [_]).length
    rw [List.length_append]
    omega
  · intro i h hi
    rcases hget i h hi with hold | ⟨-, rfl⟩
    · exact hs.isWrite i h hold
    · rfl
  · intro i h hi
    rcases hget i h hi with hold | ⟨rfl, rfl⟩
    · exact hs.txId i h hold
    · exact hs.next
  · intro i h hi
    rcases hget i h hi with hold | ⟨rfl, rfl⟩
    · exact hs.ended i h hold
    · refine iff_of_false ?_ (by omega)
      rintro (hcommitted | hdropped)
      · exact absurd hcommitted nofun
      · exact absurd hdropped nofun

/-- A call on the `i`-th transaction, behind which the first `k'` have ended. -/
theorem InTurn.set {k' : Nat} (hs : s.InTurn base k) {i : Nat} {h h' : TxHandle} {db : Database}
    (hi : s.txs[i]? = some h) (hcommitted : db.txManager.committedTxId = base + UInt64.ofNat k')
    (hnext : db.txManager.nextTxId = s.db.txManager.nextTxId) (hle : k' ≤ s.txs.length)
    (htx : h'.tx.txId = h.tx.txId ∧ h'.tx.isWrite = h.tx.isWrite) (hended : h'.Ended ↔ i < k')
    (hothers : ∀ j, j ≠ i → (j < k ↔ j < k')) : InTurn base k' ⟨db, s.txs.set i h'⟩ := by
  have hget : ∀ (j : Nat) (x : TxHandle), (s.txs.set i h')[j]? = some x →
      (j ≠ i ∧ s.txs[j]? = some x) ∨ (j = i ∧ x = h') := by
    intro j x hj
    by_cases hji : j = i
    · subst hji
      rw [List.getElem?_set_self (List.getElem?_eq_some_iff.mp hi).1] at hj
      exact .inr ⟨rfl, (Option.some.inj hj).symm⟩
    · rw [List.getElem?_set_ne (Ne.symm hji)] at hj
      exact .inl ⟨hji, hj⟩
  refine ⟨hcommitted, ?_, ?_, ?_, ?_, ?_⟩
  · show db.txManager.nextTxId = _
    rw [hnext, hs.next, List.length_set]
  · show k' ≤ (s.txs.set i h').length
    rw [List.length_set]
    exact hle
  · intro j x hj
    rcases hget j x hj with ⟨-, hold⟩ | ⟨rfl, rfl⟩
    · exact hs.isWrite j x hold
    · exact htx.2.trans (hs.isWrite j h hi)
  · intro j x hj
    rcases hget j x hj with ⟨-, hold⟩ | ⟨rfl, rfl⟩
    · exact hs.txId j x hold
    · exact htx.1.trans (hs.txId j h hi)
  · intro j x hj
    rcases hget j x hj with ⟨hji, hold⟩ | ⟨rfl, rfl⟩
    · exact (hs.ended j x hold).trans (hothers j hji)
    · exact hended

/-- Nothing that counts is changed. -/
theorem InTurn.same (hs : s.InTurn base k) {i : Nat} {h h' : TxHandle} {db : Database}
    (hi : s.txs[i]? = some h) (hmanager : db.txManager = s.db.txManager)
    (htx : h'.tx.txId = h.tx.txId ∧ h'.tx.isWrite = h.tx.isWrite) (hended : h'.Ended ↔ h.Ended) :
    InTurn base k ⟨db, s.txs.set i h'⟩ :=
  hs.set hi (by rw [hmanager, hs.committed]) (by rw [hmanager]) hs.le htx
    (hended.trans (hs.ended i h hi)) fun _ _ => Iff.rfl

/-- The end of the transaction whose turn it is. -/
theorem InTurn.ends (hs : s.InTurn base k) (hfew : s.txs.length < 2 ^ 64) {i : Nat}
    {h h' : TxHandle} {db : Database} {m : TxManager} (hi : s.txs[i]? = some h)
    (hadvance : s.db.txManager.advance h.tx.txId = some m) (hmanager : db.txManager = m)
    (htx : h'.tx.txId = h.tx.txId ∧ h'.tx.isWrite = h.tx.isWrite) (hended : h'.Ended) :
    InTurn base (k + 1) ⟨db, s.txs.set i h'⟩ := by
  obtain ⟨hturn, rfl⟩ := TxManager.advance_eq_some_iff.mp hadvance
  obtain rfl := (hs.turn_iff hfew hi).mp hturn
  have hlt := (List.getElem?_eq_some_iff.mp hi).1
  refine hs.set hi ?_ ?_ hlt htx (iff_of_true hended (by omega)) (fun j hj => by omega)
  · rw [hmanager, ← add_one_add_ofNat]
    exact hs.txId _ h hi
  · rw [hmanager]

section Persistent
variable [Bincode Node] [Bincode Edge] [Bincode (Option Value)]

theorem InTurn.step (hs : s.InTurn base k) (hfew : s.txs.length < 2 ^ 64) {a : TxAction}
    (hread : a ≠ .beginRead) (h : s.step a = some t) :
    (∃ k', t.InTurn base k') ∧
      t.txs.length = s.txs.length + if a.beginsWrite then 1 else 0 := by
  have hlength : ∀ (i : Nat) (x : TxHandle), (s.txs.set i x).length = s.txs.length + 0 :=
    fun i x => List.length_set
  cases step_took h with
  | beginRead => exact absurd rfl hread
  | beginWrite =>
    refine ⟨⟨k, hs.begin⟩, ?_⟩
    show (s.txs ++ [_]).length = _
    rw [List.length_append]
    rfl
  | @call i c x hi =>
    obtain ⟨hget, -⟩ := handle_eq_some_iff.mp hi
    obtain ⟨-, hmanager, htxId, hwrite, hcommitted⟩ := Database.apply_same (x.tx, s.db) c
    refine ⟨⟨k, hs.same hget hmanager ⟨htxId, hwrite⟩ ?_⟩, hlength _ _⟩
    exact or_congr (by rw [hcommitted]) Iff.rfl
  | refused => exact ⟨⟨k, hs⟩, rfl⟩
  | committed hi hok =>
    obtain ⟨hget, -⟩ := handle_eq_some_iff.mp hi
    rcases Transaction.commit_ok hok with ⟨hno, -, -⟩ | ⟨-, -, rfl, m, hadvance, rfl⟩
    · rw [hs.isWrite _ _ hget] at hno
      exact absurd hno nofun
    · refine ⟨⟨k + 1, hs.ends hfew hget hadvance ?_ ⟨rfl, rfl⟩ (.inl rfl)⟩, hlength _ _⟩
      rw [Database.performAll_txManager]
      rfl
  | rolledBack hi hreturns =>
    obtain ⟨hget, -⟩ := handle_eq_some_iff.mp hi
    rcases Transaction.rollback_some hreturns with ⟨hno, -, -⟩ | ⟨-, rfl, m, hadvance, rfl⟩
    · rw [hs.isWrite _ _ hget] at hno
      exact absurd hno nofun
    · exact ⟨⟨k + 1, hs.ends hfew hget hadvance rfl ⟨rfl, rfl⟩ (.inl rfl)⟩, hlength _ _⟩
  | dropped hi hreturns =>
    obtain ⟨hget, -⟩ := handle_eq_some_iff.mp hi
    rcases Transaction.drop_some hreturns with ⟨hno | hcommitted, rfl⟩ | ⟨-, -, m, hadvance, rfl⟩
    · rw [hs.isWrite _ _ hget] at hno
      exact absurd hno nofun
    · refine ⟨⟨k, hs.same hget rfl ⟨rfl, rfl⟩ ?_⟩, hlength _ _⟩
      exact iff_of_true (.inr rfl) (.inl hcommitted)
    · exact ⟨⟨k + 1, hs.ends hfew hget hadvance rfl ⟨rfl, rfl⟩ (.inr rfl)⟩, hlength _ _⟩

end Persistent

/-- **A call returns exactly when it comes in its order.** -/
theorem InTurn.returns_iff (hs : s.InTurn base k) (hfew : s.txs.length < 2 ^ 64) (a : TxAction) :
    s.Returns a ↔ s.InOrder a := by
  cases a with
  | rollback i =>
    refine forall_congr' fun h => forall_congr' fun hi => ?_
    obtain ⟨hget, -⟩ := handle_eq_some_iff.mp hi
    have hlt := (List.getElem?_eq_some_iff.mp hget).1
    have hturn : h.tx.rollback s.db = some (h.tx, s.db) → i = k := by
      intro hreturns
      rcases Transaction.rollback_some hreturns with ⟨hno, -, -⟩ | ⟨-, -, m, hadvance, -⟩
      · rw [hs.isWrite _ _ hget] at hno
        exact absurd hno nofun
      · exact (hs.turn_iff hfew hget).mp (TxManager.advance_eq_some_iff.mp hadvance).1
    rw [hs.turn_iff hfew hget, hs.ended i h hget, hs.earlierEnded_iff hlt]
    constructor
    · intro hor
      have heq : i = k := hor.elim hturn id
      omega
    · intro ⟨hnot, hle⟩
      exact .inr (by omega)
  | drop i =>
    refine forall_congr' fun h => forall_congr' fun hi => ?_
    obtain ⟨hget, hlive⟩ := handle_eq_some_iff.mp hi
    have hlt := (List.getElem?_eq_some_iff.mp hget).1
    rw [hs.turn_iff hfew hget, hs.earlierEnded_iff hlt]
    constructor
    · rintro (hnothing | rfl)
      · rcases Transaction.drop_some hnothing with ⟨hno | hcommitted, -⟩ | ⟨-, -, m, hadvance, -⟩
        · rw [hs.isWrite _ _ hget] at hno
          exact absurd hno nofun
        · exact .inl (.inl hcommitted)
        · have hturn := (hs.turn_iff hfew hget).mp (TxManager.advance_eq_some_iff.mp hadvance).1
          exact .inr (by omega)
      · exact .inr (le_refl _)
    · rintro (hended | hle)
      · left
        have hcommitted : h.tx.committed = true := hended.resolve_right (by rw [hlive]; exact nofun)
        rw [Transaction.drop, hcommitted, Bool.not_true, Bool.and_false, if_neg nofun]
      · by_cases heq : i = k
        · exact .inr heq
        · -- an earlier one has ended, and so has this one
          left
          have hended := (hs.ended i h hget).mpr (by omega)
          have hcommitted : h.tx.committed = true :=
            hended.resolve_right (by rw [hlive]; exact nofun)
          rw [Transaction.drop, hcommitted, Bool.not_true, Bool.and_false, if_neg nofun]
  | beginRead => exact Iff.rfl
  | beginWrite => exact Iff.rfl
  | call i c => exact Iff.rfl
  | commit i => exact Iff.rfl

section Persistent
variable [Bincode Node] [Bincode Edge] [Bincode (Option Value)]

theorem InTurn.guarded_iff (actions : List TxAction) : ∀ {s : TxSession} {k : Nat},
    s.InTurn base k → (∀ a ∈ actions, a ≠ .beginRead) →
      s.txs.length + actions.countP TxAction.beginsWrite < 2 ^ 64 →
      (Guarded TxSession.step Returns s actions ↔ Guarded TxSession.step InOrder s actions) := by
  induction actions with
  | nil => exact fun _ _ _ => Iff.rfl
  | cons a actions ih =>
    intro s k hs hread hfew
    rw [List.countP_cons] at hfew
    have hlen : s.txs.length < 2 ^ 64 := by omega
    refine and_congr (hs.returns_iff hlen a) (forall_congr' fun t => forall_congr' fun ht => ?_)
    obtain ⟨⟨k', ht'⟩, hlength⟩ := hs.step hlen (hread a List.mem_cons_self) ht
    exact ih ht' (fun b hb => hread b (List.mem_cons_of_mem _ hb)) (by omega)

end Persistent
end TxSession

/-- **When a thread gets its transactions finished**: in the order in which it began them, each
once. Nobody else holds a ticket at the start, and fewer than `2 ^ 64` are handed out. -/
theorem finishing_returns_iff [Bincode Node] [Bincode Edge] [Bincode (Option Value)]
    (db : Database) (actions : List TxAction) (hidle : db.Idle)
    (hwrites : ∀ a ∈ actions, a ≠ .beginRead)
    (hfew : actions.countP TxAction.beginsWrite < 2 ^ 64) :
    Guarded TxSession.step TxSession.Returns (TxSession.start db) actions ↔
      Guarded TxSession.step TxSession.InOrder (TxSession.start db) actions :=
  (TxSession.InTurn.start hidle).guarded_iff actions hwrites
    (by rw [TxSession.start, List.length_nil, Nat.zero_add]; exact hfew)

/-- Two transactions, the first one dropped first. -/
theorem finishing_returns_iff_two :
    Guarded TxSession.step TxSession.Returns (TxSession.start Database.memory)
        [.beginWrite, .beginWrite, .drop 0, .drop 1] ↔
      Guarded TxSession.step TxSession.InOrder (TxSession.start Database.memory)
        [.beginWrite, .beginWrite, .drop 0, .drop 1] :=
  finishing_returns_iff _ _ rfl (by simp) (by decide)

/-- Dropped the way Rust drops two locals, the second one spins for ever; so does a rollback behind
a commit. -/
theorem later_drop_hangs :
    Database.memory.Idle ∧
    ¬ Guarded TxSession.step TxSession.Returns (TxSession.start Database.memory)
        [.beginWrite, .beginWrite, .drop 1] ∧
    ¬ Guarded TxSession.step TxSession.Returns (TxSession.start Database.memory)
        [.beginWrite, .commit 0, .rollback 0] := by
  refine ⟨rfl, ?_, ?_⟩
  · rintro ⟨-, hlater⟩
    obtain ⟨-, hlater⟩ := hlater _ rfl
    obtain ⟨hdrop, -⟩ := hlater _ rfl
    rcases hdrop _ rfl with hnothing | hturn
    · exact absurd (congrArg Option.isSome hnothing) (by decide)
    · exact absurd hturn (by decide)
  · rintro ⟨-, hlater⟩
    obtain ⟨-, hlater⟩ := hlater _ rfl
    obtain ⟨hrollback, -⟩ := hlater _ rfl
    rcases hrollback _ rfl with hnothing | hturn
    · exact absurd (congrArg Option.isSome hnothing) (by decide)
    · exact absurd hturn (by decide)

end LightGraph
