import LightGraph.Lib.Threads
import LightGraph.Transaction.TicketLock

/-!
# The ticket lock is safe

`committed_tx_id` is loaded, compared and stored without a compare-and-swap. What makes that
sound is one fact about all threads at once: tickets are the numbers one, two, three in the
order they were handed out, and a thread that has found its turn holds the number right behind
the counter (`Placed.turn`). There is one such number, so there is one such thread, and until it
stores nobody else finds a turn.
-/

set_option autoImplicit false

namespace LightGraph

open Lib

namespace TicketLock

/-- The `i`-th ticket, while the counter stands at `committed`. -/
structure Placed (committed : TxId) (i : Nat) (k : Ticket) : Prop where
  number : k.txId.toNat = i + 1
  finished : k.pc = .finished ↔ i + 1 ≤ committed.toNat
  turn : k.pc = .storing → i = committed.toNat
  snapshot : ∀ snap, k.snapshot = some snap → snap < k.txId

/-- The invariant. -/
structure Ordered (s : TicketLock) : Prop where
  next : s.manager.nextTxId.toNat = s.tickets.length + 1
  committed : s.manager.committedTxId.toNat ≤ s.tickets.length
  placed : ∀ i k, s.tickets[i]? = some k → Placed s.manager.committedTxId i k
  snapshots : s.snapshots.Pairwise (· ≤ ·)
  seen : ∀ snap ∈ s.snapshots, snap ≤ s.manager.committedTxId

theorem start_ordered : start.Ordered :=
  ⟨rfl, Nat.le_refl 0, fun _ _ h => absurd h (by simp [start]), List.Pairwise.nil,
    fun _ h => absurd h List.not_mem_nil⟩

/-- Fewer tickets than there are numbers. -/
def Few (s : TicketLock) : Prop := s.tickets.length < 2 ^ 64 - 1

variable {s s' : TicketLock}

/-! ## One lemma for each thing a step does -/

theorem Ordered.beginRead (h : s.Ordered) :
    ({ s with snapshots := s.snapshots ++ [s.manager.committedTxId] } : TicketLock).Ordered := by
  refine ⟨h.next, h.committed, h.placed, ?_, ?_⟩
  · refine List.pairwise_append.mpr ⟨h.snapshots, List.pairwise_singleton _ _, ?_⟩
    intro a ha b hb
    rw [List.mem_singleton.mp hb]
    exact h.seen a ha
  · intro snap hsnap
    rcases List.mem_append.mp hsnap with hold | hnew
    · exact h.seen snap hold
    · rw [List.mem_singleton.mp hnew]
      exact UInt64.le_refl _

theorem Ordered.beginWrite (h : s.Ordered) (hfew : s.tickets.length + 1 < 2 ^ 64 - 1) :
    ({ s with
      manager := s.manager.beginWrite.2
      tickets := s.tickets ++ [⟨s.manager.nextTxId, none, .held⟩] } : TicketLock).Ordered := by
  refine ⟨?_, ?_, ?_, h.snapshots, h.seen⟩
  · show (s.manager.nextTxId + 1).toNat = _
    have hone : (1 : UInt64).toNat = 1 := rfl
    rw [UInt64.toNat_add, h.next, hone, List.length_append, List.length_singleton]
    omega
  · rw [List.length_append]
    exact Nat.le_trans h.committed (Nat.le_add_right _ _)
  · intro i k hk
    rcases getElem?_concat_eq_some.mp hk with hk | ⟨rfl, rfl⟩
    · exact h.placed i k hk
    · -- the new ticket: a number behind all others, and behind the counter
      refine ⟨h.next, ?_, by simp, by simp⟩
      have hbehind : ¬ s.tickets.length + 1 ≤ s.manager.committedTxId.toNat := by
        have := h.committed
        omega
      exact ⟨fun hpc => absurd hpc (by simp), fun hle => absurd hle hbehind⟩

theorem Ordered.moves (h : s.Ordered) {i : Nat} {k k' : Ticket}
    (hk : s.tickets[i]? = some k) (hm : s.Moves k k') :
    ({ s with tickets := s.tickets.set i k' } : TicketLock).Ordered := by
  have hplaced := h.placed i k hk
  have hi := (List.getElem?_eq_some_iff.mp hk).1
  have hrun : ¬ i + 1 ≤ s.manager.committedTxId.toNat := fun hle =>
    hm.running (hplaced.finished.mpr hle)
  refine ⟨by rw [List.length_set]; exact h.next, by rw [List.length_set]; exact h.committed, ?_,
    h.snapshots, h.seen⟩
  intro j l hl
  by_cases hj : i = j
  · subst hj
    rw [List.getElem?_set_self hi] at hl
    obtain rfl := Option.some.inj hl
    refine ⟨by rw [hm.txId]; exact hplaced.number, ?_, ?_, ?_⟩
    · exact ⟨fun hpc => absurd hpc hm.running', fun hle => absurd hle hrun⟩
    · -- the load that finds the turn
      intro hpc
      have hturn : s.manager.committedTxId.toNat = (k.txId - 1).toNat := by
        rw [(hm.turn hpc).2]
      have hone : (1 : UInt64).toNat = 1 := rfl
      have hle : (1 : UInt64) ≤ k.txId := by
        rw [UInt64.le_iff_toNat_le, hplaced.number, hone]
        omega
      rw [UInt64.toNat_sub_of_le _ _ hle, hplaced.number, hone, Nat.add_sub_cancel] at hturn
      exact hturn.symm
    · intro snap hsnap
      rw [hm.txId]
      rcases hm.snapshot with hsame | hload
      · exact hplaced.snapshot snap (hsame ▸ hsnap)
      · rw [hload, Option.some.injEq] at hsnap
        rw [← hsnap, UInt64.lt_iff_toNat_lt, hplaced.number]
        exact Nat.lt_of_not_le hrun
  · rw [List.getElem?_set_ne hj] at hl
    exact h.placed j l hl

/-- The store moves the counter to the number right behind it, and nobody else was about to. -/
theorem Ordered.store (h : s.Ordered) {i : Nat} {k : Ticket} (hk : s.tickets[i]? = some k)
    (hpc : k.pc = .storing) :
    ({ s with
      manager := { s.manager with committedTxId := k.txId }
      tickets := s.tickets.set i { k with pc := .finished } } : TicketLock).Ordered := by
  have hplaced := h.placed i k hk
  have hi := (List.getElem?_eq_some_iff.mp hk).1
  have hturn := hplaced.turn hpc
  have hnumber := hplaced.number
  have hup : s.manager.committedTxId ≤ k.txId := by
    rw [UInt64.le_iff_toNat_le]
    omega
  refine ⟨by rw [List.length_set]; exact h.next, ?_, ?_, h.snapshots,
    fun snap hsnap => UInt64.le_trans (h.seen snap hsnap) hup⟩
  · show k.txId.toNat ≤ _
    rw [List.length_set, hnumber]
    exact hi
  intro j l hl
  by_cases hj : i = j
  · subst hj
    rw [List.getElem?_set_self hi] at hl
    obtain rfl := Option.some.inj hl
    refine ⟨hnumber, ⟨fun _ => Nat.le_of_eq hnumber.symm, fun _ => rfl⟩, by simp,
      hplaced.snapshot⟩
  · rw [List.getElem?_set_ne hj] at hl
    have hl' := h.placed j l hl
    refine ⟨hl'.number, ?_, ?_, hl'.snapshot⟩
    · -- a ticket other than `i` is behind the new counter as it was behind the old one
      rw [hl'.finished, hnumber]
      omega
    · intro hstoring
      exact absurd (hturn.trans (hl'.turn hstoring).symm) hj

theorem step_tickets {a : TicketStep} (h : s.step a = some s') :
    s.tickets.length ≤ s'.tickets.length := by
  rcases step_cases h with rfl | rfl | ⟨i, k, k', -, -, rfl⟩ | ⟨i, k, -, -, rfl⟩
  · exact Nat.le_refl _
  · rw [List.length_append]
    exact Nat.le_add_right _ _
  · rw [List.length_set]
  · rw [List.length_set]

theorem Ordered.step (h : s.Ordered) {a : TicketStep} (hstep : s.step a = some s')
    (hfew : s'.Few) : s'.Ordered := by
  rcases step_cases hstep with rfl | rfl | ⟨i, k, k', hk, hm, rfl⟩ | ⟨i, k, hk, hpc, rfl⟩
  · exact h.beginRead
  · refine h.beginWrite ?_
    rw [Few, List.length_append] at hfew
    exact hfew
  · exact h.moves hk hm
  · exact h.store hk hpc

theorem run_ordered {steps : List TicketStep} (hrun : run step start steps = some s)
    (hfew : s.Few) : s.Ordered := by
  refine run_invariant (I := fun s : TicketLock => s.Few → s.Ordered) ?_
    (fun _ => start_ordered) hrun hfew
  intro s a s' hs hstep hfew
  exact (hs (Nat.lt_of_le_of_lt (step_tickets hstep) hfew)).step hstep hfew

/-! ## What the invariant says -/

/-- The state is as a ticket lock's should be. -/
structure Safe (s : TicketLock) : Prop where
  distinct : (s.tickets.map Ticket.txId).Nodup
  below : s.manager.committedTxId < s.manager.nextTxId
  /-- every ticket up to the counter has been handed out -/
  handedOut : ∀ txId, 0 < txId → txId ≤ s.manager.committedTxId →
    ∃ k ∈ s.tickets, k.txId = txId
  /-- and finished, and no other has -/
  finished : ∀ k ∈ s.tickets, k.pc = .finished ↔ k.txId ≤ s.manager.committedTxId
  /-- the counter has made one advance for each ticket that is finished -/
  advances : s.manager.committedTxId.toNat = s.tickets.countP fun k => k.pc = .finished
  snapshots : s.snapshots.Pairwise (· ≤ ·)
  /-- an open transaction does not see itself -/
  opened : ∀ k ∈ s.tickets, ∀ snap, k.snapshot = some snap → snap < k.txId

/-- In a list whose first `n` elements are the ones with a property, they are `n`. -/
theorem countP_of_first {α : Type} {p : α → Bool} : ∀ {l : List α} {n : Nat}, n ≤ l.length →
    (∀ i x, l[i]? = some x → (p x = true ↔ i + 1 ≤ n)) → l.countP p = n := by
  intro l
  induction l with
  | nil =>
    intro n hn _
    exact (Nat.le_zero.mp hn).symm
  | cons x l ih =>
    intro n hn h
    have hx : p x = true ↔ 0 + 1 ≤ n := h 0 x rfl
    cases n with
    | zero =>
      have hpx : p x = false := by simpa using hx
      rw [List.countP_cons_of_neg (by simp [hpx])]
      exact ih (Nat.zero_le _) fun i y hy => by simpa using h (i + 1) y hy
    | succ n =>
      have hpx : p x = true := hx.mpr (by omega)
      rw [List.countP_cons_of_pos hpx]
      refine congrArg (· + 1) (ih (Nat.le_of_succ_le_succ hn) fun i y hy => ?_)
      rw [h (i + 1) y hy]
      omega

theorem Ordered.safe (h : s.Ordered) : s.Safe := by
  have hone : (0 : UInt64).toNat = 0 := rfl
  refine ⟨?_, ?_, ?_, ?_, ?_, h.snapshots, ?_⟩
  · rw [List.nodup_iff_pairwise_ne, List.pairwise_iff_getElem]
    intro i j hi hj hlt heq
    simp only [List.length_map] at hi hj
    simp only [List.getElem_map] at heq
    have hi' := (h.placed i _ (List.getElem?_eq_getElem hi)).number
    have hj' := (h.placed j _ (List.getElem?_eq_getElem hj)).number
    rw [heq, hj'] at hi'
    omega
  · rw [UInt64.lt_iff_toNat_lt, h.next]
    exact Nat.lt_succ_of_le h.committed
  · intro txId hpos hle
    rw [UInt64.lt_iff_toNat_lt, hone] at hpos
    rw [UInt64.le_iff_toNat_le] at hle
    have hi : txId.toNat - 1 < s.tickets.length := by
      have := h.committed
      omega
    refine ⟨_, List.getElem_mem hi, ?_⟩
    apply UInt64.toNat_inj.mp
    rw [(h.placed _ _ (List.getElem?_eq_getElem hi)).number]
    omega
  · intro k hk
    obtain ⟨i, hi⟩ := List.mem_iff_getElem?.mp hk
    rw [(h.placed i k hi).finished, UInt64.le_iff_toNat_le, (h.placed i k hi).number]
  · refine (countP_of_first h.committed fun i k hk => ?_).symm
    rw [decide_eq_true_iff]
    exact (h.placed i k hk).finished
  · intro k hk
    obtain ⟨i, hi⟩ := List.mem_iff_getElem?.mp hk
    exact (h.placed i k hi).snapshot

/-- **A store is the second half of an atomic round**: the load that found the turn still
holds, so that `TxManager.advance` may stand for both. -/
theorem Ordered.store_advances (h : s.Ordered) {i : Nat} (hstep : s.step (.store i) = some s') :
    ∃ k, s.tickets[i]? = some k ∧ s.manager.advance k.txId = some s'.manager ∧
      s'.manager.committedTxId.toNat = s.manager.committedTxId.toNat + 1 := by
  simp only [TicketLock.step] at hstep
  split at hstep
  · exact absurd hstep (by simp)
  · rename_i k hk
    split at hstep
    · rename_i hpc
      obtain rfl := Option.some.inj hstep
      have hnumber := (h.placed i k hk).number
      have hturn := (h.placed i k hk).turn hpc
      refine ⟨k, hk, TxManager.advance_eq_some_iff.mpr ⟨?_, rfl⟩, by rw [← hturn]; exact hnumber⟩
      have hone : (1 : UInt64).toNat = 1 := rfl
      have hle : (1 : UInt64) ≤ k.txId := by
        rw [UInt64.le_iff_toNat_le, hnumber, hone]
        omega
      apply UInt64.toNat_inj.mp
      rw [UInt64.toNat_sub_of_le _ _ hle, hnumber, hone, Nat.add_sub_cancel, hturn]
    · exact absurd hstep (by simp)

/-- The counter stands still or goes up by one. -/
theorem Ordered.step_committed (h : s.Ordered) {a : TicketStep} (hstep : s.step a = some s') :
    s'.manager.committedTxId.toNat = s.manager.committedTxId.toNat ∨
    s'.manager.committedTxId.toNat = s.manager.committedTxId.toNat + 1 := by
  rcases step_cases hstep with rfl | rfl | ⟨i, k, k', -, -, rfl⟩ | ⟨i, k, hk, hpc, rfl⟩
  · exact Or.inl rfl
  · exact Or.inl rfl
  · exact Or.inl rfl
  · right
    rw [← (h.placed i k hk).turn hpc]
    exact (h.placed i k hk).number

end TicketLock

/-- **The ticket lock is safe**, for any number of threads and every interleaving, while there
are numbers left. -/
theorem ticket_lock_safe {steps : List TicketStep} {s : TicketLock}
    (hrun : run TicketLock.step .start steps = some s) (hfew : s.Few) :
    s.Safe ∧ ∀ a s', s.step a = some s' →
      s'.manager.committedTxId.toNat = s.manager.committedTxId.toNat ∨
      s'.manager.committedTxId.toNat = s.manager.committedTxId.toNat + 1 :=
  ⟨(TicketLock.run_ordered hrun hfew).safe, fun _ _ =>
    (TicketLock.run_ordered hrun hfew).step_committed⟩

/-- Two writers: the second begins to commit before its turn and has it when the first has
rolled back; the readers' loads fall before, between and behind the two stores. -/
def twoWriters : List TicketStep :=
  [.beginWrite, .latestCommitted 0, .beginWrite, .latestCommitted 1, .commit 1, .commitLoad 1,
    .rollback 0, .rollbackLoad 0, .beginRead, .commitLoad 1, .store 0, .commitLoad 1, .beginRead,
    .store 1, .beginRead]

theorem ticket_lock_safe_two :
    TicketLock.Safe
      { manager := { nextTxId := 3, committedTxId := 2 }
        tickets := [⟨1, some 0, .finished⟩, ⟨2, some 0, .finished⟩]
        snapshots := [0, 1, 2] } := by
  have hrun : run TicketLock.step .start twoWriters = some
      { manager := { nextTxId := 3, committedTxId := 2 }
        tickets := [⟨1, some 0, .finished⟩, ⟨2, some 0, .finished⟩]
        snapshots := [0, 1, 2] } := rfl
  exact (ticket_lock_safe hrun (show 2 < 2 ^ 64 - 1 by decide)).1

end LightGraph
