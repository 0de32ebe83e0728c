import LightGraph.Lib.Machine
import Mathlib.Algebra.BigOperators.Group.List.Basic
import Mathlib.Algebra.GroupWithZero.Nat
import Mathlib.Data.List.Perm.Basic

/-!
# How long a machine goes on

An invariant says where a schedule cannot lead. How soon it must get somewhere, and that it can, is
told by a measure: an action is charged what it takes off the measure and credited what it puts
back, so that the charges of a whole schedule stay within what there was at the start
(`run_charged`). Where every state that has not arrived can take the measure down, it can arrive
(`exists_run`).

Neither needs fairness. *Every schedule with so many steps of this kind has arrived* is a statement
about lists, and the scheduler is left out of it.
-/

set_option autoImplicit false

namespace Lib

variable {σ α : Type} {step : σ → α → Option σ}

/-- Until a schedule has arrived at `D`, its charges `c` stay within the measure it began with and
what it has been credited, `r`. -/
theorem run_charged {I D : σ → Prop} {m : σ → Nat} {c r : α → Nat}
    (hI : ∀ s a t, I s → step s a = some t → I t)
    (hD : ∀ s a t, I s → D s → step s a = some t → D t)
    (hstep : ∀ s a t, I s → ¬ D s → step s a = some t → D t ∨ m t + c a ≤ m s + r a)
    {s t : σ} {as : List α} (hs : I s) (h : run step s as = some t) :
    D t ∨ m t + (as.map c).sum ≤ m s + (as.map r).sum := by
  have hkeep : ∀ {s : σ} {as : List α}, I s → D s → run step s as = some t → D t :=
    fun hs hd hrun => (run_invariant (I := fun s => I s ∧ D s)
      (fun s a t hi hst => ⟨hI s a t hi.1 hst, hD s a t hi.1 hi.2 hst⟩) ⟨hs, hd⟩ hrun).2
  induction as generalizing s with
  | nil =>
    rw [run_nil, Option.some.injEq] at h
    subst h
    exact Or.inr (Nat.le_refl _)
  | cons a as ih =>
    obtain ⟨u, hu, hrest⟩ := run_cons_inv h
    by_cases hd : D s
    · exact Or.inl (hkeep hs hd h)
    · rcases hstep s a u hs hd hu with hd | hpaid
      · exact Or.inl (hkeep (hI s a u hs hu) hd hrest)
      · rcases ih (hI s a u hs hu) hrest with hd | hle
        · exact Or.inl hd
        · right
          simp only [List.map_cons, List.sum_cons]
          omega

/-- A state that can always take the measure down by an action of a kind can arrive at `G` by
actions of that kind, in no more steps than the measure says. -/
theorem exists_run_of {P : α → Prop} {I G : σ → Prop} {m : σ → Nat}
    (hnext : ∀ s, I s → ¬ G s → ∃ a t, P a ∧ step s a = some t ∧ I t ∧ m t < m s)
    {s : σ} (hs : I s) :
    ∃ as t, (∀ a ∈ as, P a) ∧ run step s as = some t ∧ I t ∧ G t ∧ as.length ≤ m s := by
  induction hm : m s using Nat.strongRecOn generalizing s with
  | ind n ih =>
    subst hm
    by_cases hg : G s
    · exact ⟨[], s, fun a ha => absurd ha List.not_mem_nil, rfl, hs, hg, Nat.zero_le _⟩
    · obtain ⟨a, u, ha, hu, hIu, hlt⟩ := hnext s hs hg
      obtain ⟨as, t, has, hrun, hIt, hgt, hlen⟩ := ih (m u) hlt hIu rfl
      exact ⟨a :: as, t, List.forall_mem_cons.mpr ⟨ha, has⟩, (run_cons_of_step hu).trans hrun, hIt,
        hgt, Nat.succ_le_of_lt (Nat.lt_of_le_of_lt hlen hlt)⟩

/-- What depends on how many actions of a kind there have been. -/
theorem run_counted {I : Nat → σ → Prop} {p : α → Bool}
    (hstep : ∀ n s a t, I n s → step s a = some t → I (n + if p a then 1 else 0) t)
    {n : Nat} {s t : σ} {as : List α} (hs : I n s) (h : run step s as = some t) :
    I (n + as.countP p) t := by
  induction as generalizing n s with
  | nil =>
    rw [run_nil, Option.some.injEq] at h
    exact h ▸ hs
  | cons a as ih =>
    obtain ⟨u, hu, hrest⟩ := run_cons_inv h
    have hcount : n + (a :: as).countP p = n + (if p a then 1 else 0) + as.countP p := by
      rw [List.countP_cons]
      omega
    rw [hcount]
    exact ih (hstep n s a u hs hu) hrest

/-- Charging one for each action of a kind counts them. -/
theorem sum_map_ite (p : α → Bool) (n : Nat) (as : List α) :
    (as.map fun a => if p a then n else 0).sum = n * as.countP p := by
  induction as with
  | nil => rfl
  | cons a as ih =>
    rw [List.map_cons, List.sum_cons, ih, List.countP_cons]
    split
    · rw [Nat.mul_add, Nat.mul_one, Nat.add_comm]
    · rw [Nat.zero_add, Nat.add_zero]

end Lib
