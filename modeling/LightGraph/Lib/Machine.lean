import Mathlib.Tactic.Common

/-!
# Machines that take one action after another

A system of any number of threads is, for safety, one state and a partial step function:
`step s a` is the state after the action `a`, `none` where `a` is not enabled in `s`. The
action carries every choice — which thread moves, whether a clock has run out — so that a
schedule is a list of actions and *every interleaving* is *every list*.

`run_invariant` is the induction every safety result goes through. `Guarded` is the second
notion: a schedule each of whose actions meets a condition **in the state it is taken in**.
A program that keeps a property only while nobody does a certain thing is described by it,
and `guarded_invariant` is its induction.
-/

set_option autoImplicit false

namespace Lib

variable {σ α : Type}

/-- The state after a schedule, `none` where one of its actions is not enabled. -/
def run (step : σ → α → Option σ) : σ → List α → Option σ
  | s, [] => some s
  | s, a :: as =>
    match step s a with
    | none => none
    | some t => run step t as

/-- Every action of the schedule meets the condition in the state it is taken in. -/
def Guarded (step : σ → α → Option σ) (good : σ → α → Prop) : σ → List α → Prop
  | _, [] => True
  | s, a :: as => good s a ∧ ∀ t, step s a = some t → Guarded step good t as

section Run
variable {step : σ → α → Option σ}

@[simp] theorem run_nil (s : σ) : run step s [] = some s := rfl

theorem run_cons_of_step {s t : σ} {a : α} {as : List α} (h : step s a = some t) :
    run step s (a :: as) = run step t as := by
  rw [run, h]

theorem run_cons_inv {s u : σ} {a : α} {as : List α} (h : run step s (a :: as) = some u) :
    ∃ t, step s a = some t ∧ run step t as = some u := by
  rw [run] at h
  cases hs : step s a with
  | none => rw [hs] at h; exact absurd h (by simp)
  | some t => rw [hs] at h; exact ⟨t, rfl, h⟩

theorem run_append {s t : σ} {as : List α} (h : run step s as = some t) (bs : List α) :
    run step s (as ++ bs) = run step t bs := by
  induction as generalizing s with
  | nil =>
    rw [run_nil, Option.some.injEq] at h
    rw [List.nil_append, h]
  | cons a as ih =>
    obtain ⟨u, hu, hrest⟩ := run_cons_inv h
    rw [List.cons_append, run_cons_of_step hu, ih hrest]

/-- A predicate that every step keeps holds at the end of every schedule it holds at the
start of. -/
theorem run_invariant {I : σ → Prop} (hstep : ∀ s a t, I s → step s a = some t → I t)
    {s t : σ} {as : List α} (hs : I s) (h : run step s as = some t) : I t := by
  induction as generalizing s with
  | nil =>
    rw [run_nil, Option.some.injEq] at h
    exact h ▸ hs
  | cons a as ih =>
    obtain ⟨u, hu, hrest⟩ := run_cons_inv h
    exact ih (hstep s a u hs hu) hrest

theorem Guarded.cons {good : σ → α → Prop} {s t : σ} {a : α} {as : List α}
    (h : step s a = some t) (hgood : good s a) (hrest : Guarded step good t as) :
    Guarded step good s (a :: as) := by
  refine ⟨hgood, fun u hu => ?_⟩
  rw [h, Option.some.injEq] at hu
  exact hu ▸ hrest

theorem guarded_cons_of_step {good : σ → α → Prop} {s t : σ} {a : α} {as : List α}
    (h : step s a = some t) :
    Guarded step good s (a :: as) ↔ good s a ∧ Guarded step good t as :=
  ⟨fun hg => ⟨hg.1, hg.2 t h⟩, fun hg => Guarded.cons h hg.1 hg.2⟩

/-- A condition on the action alone. -/
theorem Guarded.of_forall {good : α → Prop} {as : List α} (h : ∀ a ∈ as, good a) (s : σ) :
    Guarded step (fun _ a => good a) s as := by
  induction as generalizing s with
  | nil => trivial
  | cons a as ih =>
    exact ⟨h a List.mem_cons_self, fun t _ => ih (fun b hb => h b (List.mem_cons_of_mem a hb)) t⟩

theorem Guarded.of_append {good : σ → α → Prop} {as bs : List α} {s : σ}
    (h : Guarded step good s (as ++ bs)) : Guarded step good s as := by
  induction as generalizing s with
  | nil => trivial
  | cons a as ih => exact ⟨h.1, fun t ht => ih (h.2 t ht)⟩

/-- One on top of another condition. -/
theorem Guarded.and {good : σ → α → Prop} {asked : α → Prop} {as : List α}
    (h : ∀ a ∈ as, asked a) {s : σ} (hg : Guarded step good s as) :
    Guarded step (fun s a => good s a ∧ asked a) s as := by
  induction as generalizing s with
  | nil => trivial
  | cons a as ih =>
    refine ⟨⟨hg.1, h a List.mem_cons_self⟩, fun t ht => ?_⟩
    exact ih (fun b hb => h b (List.mem_cons_of_mem a hb)) (hg.2 t ht)

/-- Steps taken under the condition keep the predicate, so a guarded schedule does. -/
theorem guarded_invariant {good : σ → α → Prop} {I : σ → Prop}
    (hstep : ∀ s a t, I s → good s a → step s a = some t → I t)
    {s t : σ} {as : List α} (hs : I s) (hg : Guarded step good s as)
    (h : run step s as = some t) : I t := by
  induction as generalizing s with
  | nil =>
    rw [run_nil, Option.some.injEq] at h
    exact h ▸ hs
  | cons a as ih =>
    obtain ⟨u, hu, hrest⟩ := run_cons_inv h
    exact ih (hstep s a u hs hg.1 hu) (hg.2 u hu) hrest

/-- Conditions that come to the same in every state there can be. -/
theorem guarded_congr {K : σ → Prop} {good asked : σ → α → Prop}
    (hK : ∀ s a t, K s → step s a = some t → K t) (h : ∀ s a, K s → (good s a ↔ asked s a))
    {s : σ} (hs : K s) (as : List α) : Guarded step good s as ↔ Guarded step asked s as := by
  induction as generalizing s with
  | nil => exact Iff.rfl
  | cons a as ih =>
    refine and_congr (h s a hs) (forall_congr' fun t => forall_congr' fun ht => ?_)
    exact ih (hK s a t hs ht)

/-- Where a step under the condition is exactly a step that keeps the predicate and does what is
asked of it, a guarded schedule is exactly one that ends in the predicate and did what was asked
of it all along. -/
theorem guarded_iff {K I : σ → Prop} {good asked : σ → α → Prop}
    (hK : ∀ s a t, K s → step s a = some t → K t)
    (hstep : ∀ s a t, K s → step s a = some t → (I s ∧ good s a ↔ I t ∧ asked s a))
    {s t : σ} {as : List α} (hs : K s) (h : run step s as = some t) :
    I s ∧ Guarded step good s as ↔ I t ∧ Guarded step asked s as := by
  induction as generalizing s with
  | nil =>
    rw [run_nil, Option.some.injEq] at h
    subst h
    exact Iff.rfl
  | cons a as ih =>
    obtain ⟨u, hu, hrest⟩ := run_cons_inv h
    rw [guarded_cons_of_step hu, guarded_cons_of_step hu, ← and_assoc, hstep s a u hs hu]
    have hu' := ih (hK s a u hs hu) hrest
    constructor
    · intro ⟨⟨hI, ha⟩, hg⟩
      obtain ⟨ht, hg'⟩ := hu'.mp ⟨hI, hg⟩
      exact ⟨ht, ha, hg'⟩
    · intro ⟨ht, ha, hg⟩
      obtain ⟨hI, hg'⟩ := hu'.mpr ⟨ht, hg⟩
      exact ⟨⟨hI, ha⟩, hg'⟩

end Run

/-! ## Answers -/

section Answers
variable {β : Type} {call : σ → α → β × σ}

/-- What the calls answer, one after another. -/
def answers (call : σ → α → β × σ) : σ → List α → List β
  | _, [] => []
  | s, a :: as => (call s a).1 :: answers call (call s a).2 as

/-- States that every call answers alike and leaves alike cannot be told apart. -/
theorem answers_eq {R : σ → σ → Prop}
    (h : ∀ s t a, R s t → (call s a).1 = (call t a).1 ∧ R (call s a).2 (call t a).2)
    {s t : σ} (hst : R s t) (as : List α) : answers call s as = answers call t as := by
  induction as generalizing s t with
  | nil => rfl
  | cons a as ih =>
    obtain ⟨hanswer, hnext⟩ := h s t a hst
    rw [answers, answers, hanswer, ih hnext]

end Answers
end Lib
