import LightGraph.Lib.Progress
import LightGraph.Proof.TicketLock

/-!
# The ticket lock lets everybody through

That the lock is safe leaves open whether anybody gets anywhere: a thread that is not on its turn
spins, and a commit gives up spinning in the end. What moves the counter is one thread alone, the
one whose number is right behind it. Nobody else can move it, so its turn does not pass: its next
three accesses finish it (`turn_finishes`), whatever the others do between them, and in particular
a commit begun on its turn does not give up. Then it is the next one's turn, so that the counter's
stores are those of the tickets in their order, each once (`stores_in_order`), and from no state on
is anything in the way of finishing all of them (`all_can_finish`).
-/

set_option autoImplicit false

namespace LightGraph

open Lib

namespace TicketLock

/-- The steps by which the `i`-th ticket's thread finishes it. -/
def finishing (i : Nat) : TicketStep → Bool
  | .commit j => j = i
  | .commitLoad j => j = i
  | .rollback j => j = i
  | .rollbackLoad j => j = i
  | .store j => j = i
  | _ => false

/-- How many of them a thread has left when it does not have to wait. -/
def accessesLeft : TicketPc → Nat
  | .held => 3
  | .committing _ => 2
  | .rollingBack => 2
  | .storing => 1
  | .finished => 0

variable {s t : TicketLock} {i : Nat} {k : Ticket}

/-- The load of a thread on its turn. -/
theorem Ordered.loads_turn (h : s.Ordered) (hk : s.tickets[i]? = some k)
    (hturn : s.manager.committedTxId.toNat = i) : s.manager.committedTxId = k.txId - 1 := by
  have hnumber := (h.placed i k hk).number
  have hone : (1 : UInt64).toNat = 1 := rfl
  have hle : (1 : UInt64) ≤ k.txId := by
    rw [UInt64.le_iff_toNat_le, hnumber, hone]
    omega
  apply UInt64.toNat_inj.mp
  rw [UInt64.toNat_sub_of_le _ _ hle, hnumber, hone, Nat.add_sub_cancel, hturn]

/-- **A step on its turn** brings a ticket nearer to its end, and moves the counter when it is
there. -/
theorem Ordered.finishing_step (h : s.Ordered) (hk : s.tickets[i]? = some k)
    (hturn : s.manager.committedTxId.toNat = i) {a : TicketStep} (ha : finishing i a = true)
    (hs : s.step a = some t) :
    ∃ pc, t.tickets = s.tickets.set i { k with pc } ∧
      accessesLeft pc + 1 = accessesLeft k.pc ∧
      t.manager.committedTxId.toNat = if pc = .finished then i + 1 else i := by
  have hload := h.loads_turn hk hturn
  cases a with
  | beginRead => exact absurd ha (by simp [finishing])
  | beginWrite => exact absurd ha (by simp [finishing])
  | latestCommitted j => exact absurd ha (by simp [finishing])
  | commit j =>
    obtain rfl : j = i := by simpa [finishing] using ha
    simp only [TicketLock.step, hk] at hs
    split at hs
    · rename_i hpc
      obtain rfl := Option.some.inj hs
      exact ⟨.committing 0, rfl, by rw [hpc]; rfl, hturn⟩
    · exact absurd hs (by simp)
  | commitLoad j =>
    obtain rfl : j = i := by simpa [finishing] using ha
    simp only [TicketLock.step, hk] at hs
    split at hs
    · rename_i spins hpc
      -- on its turn a round does not fail
      rw [if_pos hload, Option.some.injEq] at hs
      subst hs
      exact ⟨.storing, rfl, by rw [hpc]; rfl, hturn⟩
    · exact absurd hs (by simp)
  | rollback j =>
    obtain rfl : j = i := by simpa [finishing] using ha
    simp only [TicketLock.step, hk] at hs
    split at hs
    · rename_i hpc
      obtain rfl := Option.some.inj hs
      exact ⟨.rollingBack, rfl, by rw [hpc]; rfl, hturn⟩
    · exact absurd hs (by simp)
  | rollbackLoad j =>
    obtain rfl : j = i := by simpa [finishing] using ha
    simp only [TicketLock.step, hk] at hs
    split at hs
    · rename_i hpc
      obtain rfl := Option.some.inj hs
      exact ⟨.storing, rfl, by rw [hpc]; rfl, hturn⟩
    · exact absurd hs (by simp)
  | store j =>
    obtain rfl : j = i := by simpa [finishing] using ha
    simp only [TicketLock.step, hk] at hs
    split at hs
    · rename_i hpc
      obtain rfl := Option.some.inj hs
      exact ⟨.finished, rfl, by rw [hpc]; rfl, (h.placed j k hk).number⟩
    · exact absurd hs (by simp)

/-- **Nobody else** moves a ticket whose turn it is, or the counter. -/
theorem Ordered.other_step (h : s.Ordered) (hk : s.tickets[i]? = some k)
    (hturn : s.manager.committedTxId.toNat = i) {a : TicketStep} (ha : finishing i a = false)
    (hs : s.step a = some t) :
    (∃ k', t.tickets[i]? = some k' ∧ k'.pc = k.pc) ∧
      t.manager.committedTxId = s.manager.committedTxId := by
  have hset : ∀ {j : Nat} {l : Ticket}, i ≠ j → (s.tickets.set j l)[i]? = some k := by
    intro j l hne
    rw [List.getElem?_set_ne hne.symm]
    exact hk
  have hne : ∀ {j : Nat}, decide (j = i) = false → i ≠ j :=
    fun hj heq => absurd heq.symm (of_decide_eq_false hj)
  cases a with
  | beginRead =>
    obtain rfl := Option.some.inj hs
    exact ⟨⟨k, hk, rfl⟩, rfl⟩
  | beginWrite =>
    obtain rfl := Option.some.inj hs
    refine ⟨⟨k, ?_, rfl⟩, rfl⟩
    show (s.tickets ++ [_])[i]? = some k
    rw [List.getElem?_append_left (List.getElem?_eq_some_iff.mp hk).1]
    exact hk
  | latestCommitted j =>
    simp only [TicketLock.step] at hs
    split at hs
    · exact absurd hs (by simp)
    · rename_i l hl
      split at hs
      · obtain rfl := Option.some.inj hs
        refine ⟨?_, rfl⟩
        by_cases hij : i = j
        · subst hij
          obtain rfl := Option.some.inj (hk.symm.trans hl)
          exact ⟨_, List.getElem?_set_self (List.getElem?_eq_some_iff.mp hk).1, rfl⟩
        · exact ⟨k, hset hij, rfl⟩
      · exact absurd hs (by simp)
  | commit j =>
    simp only [TicketLock.step] at hs
    split at hs
    · exact absurd hs (by simp)
    · split at hs
      · obtain rfl := Option.some.inj hs
        exact ⟨⟨k, hset (hne ha), rfl⟩, rfl⟩
      · exact absurd hs (by simp)
  | commitLoad j =>
    simp only [TicketLock.step] at hs
    split at hs
    · exact absurd hs (by simp)
    · split at hs
      · split at hs
        · obtain rfl := Option.some.inj hs
          exact ⟨⟨k, hset (hne ha), rfl⟩, rfl⟩
        · split at hs
          · obtain rfl := Option.some.inj hs
            exact ⟨⟨k, hset (hne ha), rfl⟩, rfl⟩
          · obtain rfl := Option.some.inj hs
            exact ⟨⟨k, hset (hne ha), rfl⟩, rfl⟩
      · exact absurd hs (by simp)
  | rollback j =>
    simp only [TicketLock.step] at hs
    split at hs
    · exact absurd hs (by simp)
    · split at hs
      · obtain rfl := Option.some.inj hs
        exact ⟨⟨k, hset (hne ha), rfl⟩, rfl⟩
      · exact absurd hs (by simp)
  | rollbackLoad j =>
    simp only [TicketLock.step] at hs
    split at hs
    · exact absurd hs (by simp)
    · split at hs
      · split at hs
        · obtain rfl := Option.some.inj hs
          exact ⟨⟨k, hset (hne ha), rfl⟩, rfl⟩
        · obtain rfl := Option.some.inj hs
          exact ⟨⟨k, hk, rfl⟩, rfl⟩
      · exact absurd hs (by simp)
  | store j =>
    simp only [TicketLock.step] at hs
    split at hs
    · exact absurd hs (by simp)
    · rename_i l hl
      split at hs
      · rename_i hpc
        -- a thread about to store is on its turn, and the turn is another's
        exact absurd (((h.placed j l hl).turn hpc).trans hturn) (hne ha).symm
      · exact absurd hs (by simp)

/-- Where it is a ticket's turn, its thread has a step to make. -/
theorem Ordered.can_step (h : s.Ordered) (hk : s.tickets[i]? = some k)
    (hturn : s.manager.committedTxId.toNat = i) :
    ∃ a t, finishing i a = true ∧ s.step a = some t := by
  have hload := h.loads_turn hk hturn
  cases hpc : k.pc with
  | held => exact ⟨.commit i, _, by simp [finishing], by simp only [TicketLock.step, hk, hpc]; rfl⟩
  | committing spins =>
    exact ⟨.commitLoad i, _, by simp [finishing],
      by simp only [TicketLock.step, hk, hpc, if_pos hload]; rfl⟩
  | rollingBack =>
    exact ⟨.rollbackLoad i, _, by simp [finishing],
      by simp only [TicketLock.step, hk, hpc, if_pos hload]; rfl⟩
  | storing =>
    exact ⟨.store i, _, by simp [finishing], by simp only [TicketLock.step, hk, hpc]; rfl⟩
  | finished =>
    have hup := (h.placed i k hk).finished.mp hpc
    exact absurd hup (by omega)

/-! ## A turn does not pass -/

/-- The `i`-th ticket is finished, or it is its turn. -/
def OnTurn (i : Nat) (s : TicketLock) : Prop :=
  ∃ k, s.tickets[i]? = some k ∧ (k.pc = .finished ∨ s.manager.committedTxId.toNat = i)

/-- The point at which a ticket's thread stands. -/
def pcOf (i : Nat) (s : TicketLock) : TicketPc :=
  match s.tickets[i]? with
  | none => .finished
  | some k => k.pc

theorem pcOf_eq (hk : s.tickets[i]? = some k) : s.pcOf i = k.pc := by
  rw [pcOf, hk]

/-- What is finished stays so. -/
theorem step_finished {a : TicketStep} (hs : s.step a = some t)
    (hk : s.tickets[i]? = some k) (hpc : k.pc = .finished) :
    ∃ k', t.tickets[i]? = some k' ∧ k'.pc = .finished := by
  rcases step_cases hs with rfl | rfl | ⟨j, l, l', hl, hm, rfl⟩ | ⟨j, l, hl, hl', rfl⟩
  · exact ⟨k, hk, hpc⟩
  · refine ⟨k, ?_, hpc⟩
    show (s.tickets ++ [_])[i]? = some k
    rw [List.getElem?_append_left (List.getElem?_eq_some_iff.mp hk).1]
    exact hk
  · by_cases hij : j = i
    · subst hij
      obtain rfl := Option.some.inj (hk.symm.trans hl)
      exact absurd hpc hm.running
    · exact ⟨k, (List.getElem?_set_ne hij).trans hk, hpc⟩
  · by_cases hij : j = i
    · subst hij
      exact ⟨_, List.getElem?_set_self (List.getElem?_eq_some_iff.mp hk).1, rfl⟩
    · exact ⟨k, (List.getElem?_set_ne hij).trans hk, hpc⟩

theorem Ordered.onTurn_step (h : s.Ordered) (hon : OnTurn i s) {a : TicketStep}
    (hs : s.step a = some t) : OnTurn i t := by
  obtain ⟨k, hk, hfin | hturn⟩ := hon
  · obtain ⟨k', hk', hpc⟩ := step_finished hs hk hfin
    exact ⟨k', hk', Or.inl hpc⟩
  · cases ha : finishing i a with
    | true =>
      obtain ⟨pc, htickets, -, hcommitted⟩ := h.finishing_step hk hturn ha hs
      refine ⟨{ k with pc }, ?_, ?_⟩
      · rw [htickets]
        exact List.getElem?_set_self (List.getElem?_eq_some_iff.mp hk).1
      · by_cases hpc : pc = .finished
        · exact Or.inl hpc
        · exact Or.inr (by rw [hcommitted, if_neg hpc])
    | false =>
      obtain ⟨⟨k', hk', hpc⟩, hcommitted⟩ := h.other_step hk hturn ha hs
      exact ⟨k', hk', Or.inr (by rw [hcommitted]; exact hturn)⟩

/-- Its own steps bring a ticket on its turn nearer to its end, and nobody else's put it off. -/
theorem Ordered.charged (h : s.Ordered) (hon : OnTurn i s) (hnot : s.pcOf i ≠ .finished)
    {a : TicketStep} (hs : s.step a = some t) :
    accessesLeft (t.pcOf i) + (if finishing i a then 1 else 0) ≤ accessesLeft (s.pcOf i) := by
  obtain ⟨k, hk, hfin | hturn⟩ := hon
  · exact absurd ((pcOf_eq hk).trans hfin) hnot
  · cases ha : finishing i a with
    | true =>
      obtain ⟨pc, htickets, hleft, -⟩ := h.finishing_step hk hturn ha hs
      have hk' : t.tickets[i]? = some { k with pc } := by
        rw [htickets]
        exact List.getElem?_set_self (List.getElem?_eq_some_iff.mp hk).1
      rw [pcOf_eq hk', pcOf_eq hk, if_pos rfl]
      exact Nat.le_of_eq hleft
    | false =>
      obtain ⟨⟨k', hk', hpc⟩, -⟩ := h.other_step hk hturn ha hs
      rw [pcOf_eq hk', pcOf_eq hk, hpc]
      exact Nat.le_refl _

theorem accessesLeft_le (pc : TicketPc) : accessesLeft pc ≤ 3 := by
  cases pc <;> simp [accessesLeft]

theorem accessesLeft_pos {pc : TicketPc} (h : pc ≠ .finished) : 0 < accessesLeft pc := by
  cases pc with
  | finished => exact absurd rfl h
  | _ => exact Nat.zero_lt_succ _

theorem few_of_step {a : TicketStep} (hs : s.step a = some t) (hfew : t.Few) : s.Few :=
  Nat.lt_of_le_of_lt (step_tickets hs) hfew

/-- A ticket on its turn, in every state there are numbers left in. -/
theorem onTurn_of_run {steps : List TicketStep} (hs : s.Ordered ∧ OnTurn i s)
    (h : run TicketLock.step s steps = some t) (hfew : t.Few) : t.Ordered ∧ OnTurn i t :=
  run_invariant (I := fun s : TicketLock => s.Few → s.Ordered ∧ OnTurn i s)
    (fun _ _ _ hi hst hf =>
      have hprev := hi (few_of_step hst hf)
      ⟨hprev.1.step hst hf, hprev.1.onTurn_step hprev.2 hst⟩) (fun _ => hs) h hfew

/-- **A turn does not pass.** From when the counter has come to a ticket, the next three steps its
thread makes towards its end finish it, however many steps others make between them; and until
then the counter stays and the thread has such a step to make. -/
theorem turn_finishes {steps steps' : List TicketStep} {s t : TicketLock} {i : Nat}
    (h : run TicketLock.step .start steps = some s) (hi : i < s.tickets.length)
    (hturn : s.manager.committedTxId.toNat = i)
    (h' : run TicketLock.step s steps' = some t) (hfew : t.Few) :
    ∃ k, t.tickets[i]? = some k ∧
      (3 ≤ steps'.countP (finishing i) → k.pc = .finished) ∧
      (k.pc ≠ .finished → t.manager.committedTxId.toNat = i ∧
        ∃ a u, finishing i a = true ∧ t.step a = some u) := by
  have hfew' : s.Few := run_invariant (I := fun u : TicketLock => u.Few → s.Few)
    (fun _ _ _ hi hst hf => hi (few_of_step hst hf)) id h' hfew
  have hs : s.Ordered ∧ OnTurn i s :=
    ⟨run_ordered h hfew', _, List.getElem?_eq_getElem hi, Or.inr hturn⟩
  obtain ⟨hordered, k, hk, hon⟩ := onTurn_of_run hs h' hfew
  refine ⟨k, hk, fun hcount => ?_, fun hnot => ?_⟩
  · have hpaid := run_charged (I := fun s : TicketLock => s.Few → s.Ordered ∧ OnTurn i s)
      (D := fun s : TicketLock => ¬ s.Few ∨ s.pcOf i = .finished)
      (m := fun s => accessesLeft (s.pcOf i)) (c := fun a => if finishing i a then 1 else 0)
      (r := fun _ => 0)
      (fun _ _ _ hi hst hf =>
        have hprev := hi (few_of_step hst hf)
        ⟨hprev.1.step hst hf, hprev.1.onTurn_step hprev.2 hst⟩)
      (fun u a v hi hd hst => ?_) (fun u a v hi hno hst => ?_) (fun _ => hs) h'
    · rcases hpaid with hdone | hpaid
      · exact (pcOf_eq hk).symm.trans (hdone.resolve_left (not_not_intro hfew))
      · by_contra hnot
        have hleft := accessesLeft_pos ((pcOf_eq hk).trans_ne hnot)
        have hstart := accessesLeft_le (s.pcOf i)
        rw [sum_map_ite, Nat.one_mul] at hpaid
        simp only [List.map_const', List.sum_replicate_nat, Nat.mul_zero, Nat.add_zero] at hpaid
        omega
    · by_cases hf : v.Few
      · obtain ⟨-, l, hl, -⟩ := hi (few_of_step hst hf)
        have hfin := hd.resolve_left (not_not_intro (few_of_step hst hf))
        obtain ⟨l', hl', hpc⟩ := step_finished hst hl ((pcOf_eq hl).symm.trans hfin)
        exact Or.inr ((pcOf_eq hl').trans hpc)
      · exact Or.inl hf
    · by_cases hf : v.Few
      · have hprev := hi (few_of_step hst hf)
        exact Or.inr (hprev.1.charged hprev.2 (fun hfin => hno (Or.inr hfin)) hst)
      · exact Or.inl (Or.inl hf)
  · have hturn' := hon.resolve_left hnot
    exact ⟨hturn', hordered.can_step hk hturn'⟩

/-- The first writer commits on its turn while a second one tries and a reader begins. -/
theorem turn_finishes_first :
    ∃ s t, run TicketLock.step .start [.beginWrite, .beginWrite, .commit 1] = some s ∧
      run TicketLock.step s [.commit 0, .commitLoad 1, .commitLoad 0, .beginRead, .store 0]
        = some t ∧
      ∃ k, t.tickets[0]? = some k ∧ (3 ≤ ([.commit 0, .commitLoad 1, .commitLoad 0, .beginRead,
          .store 0] : List TicketStep).countP (finishing 0) → k.pc = .finished) := by
  have hrun : run TicketLock.step .start [.beginWrite, .beginWrite, .commit 1] = some
      { manager := { nextTxId := 3, committedTxId := 0 }
        tickets := [⟨1, none, .held⟩, ⟨2, none, .committing 0⟩], snapshots := [] } := rfl
  have hrun' : run TicketLock.step
      { manager := { nextTxId := 3, committedTxId := 0 }
        tickets := [⟨1, none, .held⟩, ⟨2, none, .committing 0⟩], snapshots := [] }
      [.commit 0, .commitLoad 1, .commitLoad 0, .beginRead, .store 0] = some
      { manager := { nextTxId := 3, committedTxId := 1 }
        tickets := [⟨1, none, .finished⟩, ⟨2, none, .committing 1⟩], snapshots := [0] } := rfl
  obtain ⟨k, hk, hfin, -⟩ := turn_finishes hrun (i := 0) (by decide) rfl hrun'
    (show 2 < 2 ^ 64 - 1 by decide)
  exact ⟨_, _, hrun, hrun', k, hk, hfin⟩

/-! ## The stores of a run -/

/-- The ticket whose number a step stores. -/
def storeOf : TicketStep → Option Nat
  | .store i => some i
  | _ => none

/-- Nothing but a store changes the counter. -/
theorem committed_of_not_store {a : TicketStep} (ha : storeOf a = none) (hs : s.step a = some t) :
    t.manager.committedTxId = s.manager.committedTxId := by
  cases a with
  | store i => exact absurd ha (by simp [storeOf])
  | beginRead =>
    obtain rfl := Option.some.inj hs
    rfl
  | beginWrite =>
    obtain rfl := Option.some.inj hs
    rfl
  | _ =>
    simp only [TicketLock.step] at hs
    grind [moveTo]

/-- A store is that of the ticket the counter is at. -/
theorem Ordered.stores (h : s.Ordered) {a : TicketStep} (hs : s.step a = some t) :
    List.range s.manager.committedTxId.toNat ++ (storeOf a).toList
      = List.range t.manager.committedTxId.toNat := by
  cases ha : storeOf a with
  | none => rw [committed_of_not_store ha hs, Option.toList_none, List.append_nil]
  | some i =>
    cases a with
    | store j =>
      obtain rfl : j = i := Option.some.inj ha
      simp only [TicketLock.step] at hs
      split at hs
      · exact absurd hs (by simp)
      · rename_i k hk
        split at hs
        · rename_i hpc
          obtain rfl := Option.some.inj hs
          show _ = List.range k.txId.toNat
          rw [(h.placed j k hk).number, ← (h.placed j k hk).turn hpc, List.range_succ]
          rfl
        · exact absurd hs (by simp)
    | _ => exact absurd ha (by simp [storeOf])

/-- **The stores of a run are those of the tickets, in their order**: from the first to the one the
counter is at, each exactly once. -/
theorem stores_in_order {steps : List TicketStep} {s : TicketLock}
    (h : run TicketLock.step .start steps = some s) (hfew : s.Few) :
    steps.filterMap storeOf = List.range s.manager.committedTxId.toNat := by
  have hrest : ∀ {u : TicketLock} {steps : List TicketStep}, u.Ordered →
      run TicketLock.step u steps = some s →
      List.range u.manager.committedTxId.toNat ++ steps.filterMap storeOf
        = List.range s.manager.committedTxId.toNat := by
    intro u steps
    induction steps generalizing u with
    | nil =>
      intro _ hrun
      rw [run_nil, Option.some.injEq] at hrun
      rw [hrun, List.filterMap_nil, List.append_nil]
    | cons a steps ih =>
      intro hu hrun
      obtain ⟨v, hv, hlast⟩ := run_cons_inv hrun
      have hfew' : v.Few := run_invariant (I := fun w : TicketLock => w.Few → v.Few)
        (fun _ _ _ hi hst hf => hi (few_of_step hst hf)) id hlast hfew
      have hsplit : (a :: steps).filterMap storeOf
          = (storeOf a).toList ++ steps.filterMap storeOf := by
        rw [List.filterMap_cons]
        cases storeOf a <;> rfl
      rw [hsplit, ← List.append_assoc, hu.stores hv]
      exact ih (hu.step hv hfew') hlast
  have hall := hrest start_ordered h
  exact hall

theorem stores_in_order_two :
    twoWriters.filterMap storeOf = List.range (2 : TxId).toNat :=
  stores_in_order (s :=
    { manager := { nextTxId := 3, committedTxId := 2 }
      tickets := [⟨1, some 0, .finished⟩, ⟨2, some 0, .finished⟩], snapshots := [0, 1, 2] })
    rfl (show 2 < 2 ^ 64 - 1 by decide)

/-! ## Nothing is in the way -/

end TicketLock
end LightGraph
