import Mathlib.Data.List.Induction
import Mathlib.Tactic.Common

/-!
# Replaying a log over a checkpoint

A checkpoint is the state after a beginning of the log. When it is not known which beginning, the
log is replayed over it from its start, and what the checkpoint has already seen is done a second
time. That is harmless if every action, done again, makes up for whatever it did the first time,
also with another action in between (`Absorbs`): two facts about single actions, from which
`IsCheckpoint.replay` follows for whole logs.
-/

set_option autoImplicit false

namespace Lib

variable {σ α : Type}

/-- What an action did is lost when it is done again. -/
structure Absorbs (f : σ → α → σ) : Prop where
  again : ∀ s a, f (f s a) a = f s a
  between : ∀ s a b, f (f (f s a) b) a = f (f s b) a

namespace Absorbs
variable {f : σ → α → σ}

/-- With any number of actions in between. -/
theorem foldl_between (h : Absorbs f) (as : List α) (a : α) : ∀ s,
    f (as.foldl f (f s a)) a = f (as.foldl f s) a := by
  induction as with
  | nil => exact fun s => h.again s a
  | cons b as ih =>
    intro s
    show f (as.foldl f (f (f s a) b)) a = f (as.foldl f (f s b)) a
    calc f (as.foldl f (f (f s a) b)) a
        = f (as.foldl f (f (f (f s a) b) a)) a := (ih _).symm
      _ = f (as.foldl f (f (f s b) a)) a := by rw [h.between]
      _ = f (as.foldl f (f s b)) a := ih _

theorem foldl_again (h : Absorbs f) (as : List α) (s : σ) :
    as.foldl f (as.foldl f s) = as.foldl f s := by
  induction as using List.reverseRecOn with
  | nil => rfl
  | append_singleton as a ih =>
    simp only [List.foldl_append, List.foldl_cons, List.foldl_nil]
    rw [h.foldl_between, ih]

end Absorbs

/-! ## Checkpoints -/

/-- The state after a beginning of the log. -/
def IsCheckpoint (f : σ → α → σ) (start : σ) (log : List α) (c : σ) : Prop :=
  ∃ before, before <+: log ∧ c = before.foldl f start

section IsCheckpoint
variable {f : σ → α → σ} {start c : σ} {log log' : List α}

theorem isCheckpoint_start (f : σ → α → σ) (start : σ) (log : List α) :
    IsCheckpoint f start log start :=
  ⟨[], List.nil_prefix, rfl⟩

theorem isCheckpoint_foldl (f : σ → α → σ) (start : σ) (log : List α) :
    IsCheckpoint f start log (log.foldl f start) :=
  ⟨log, List.prefix_refl log, rfl⟩

/-- A log that grows keeps its checkpoints. -/
theorem IsCheckpoint.mono (h : IsCheckpoint f start log c) (hpre : log <+: log') :
    IsCheckpoint f start log' c := by
  obtain ⟨before, hbefore, hc⟩ := h
  exact ⟨before, hbefore.trans hpre, hc⟩

/-- **A log replayed over a checkpoint of its own.** -/
theorem IsCheckpoint.replay (h : IsCheckpoint f start log c) (hf : Absorbs f) :
    log.foldl f c = log.foldl f start := by
  obtain ⟨before, ⟨since, rfl⟩, rfl⟩ := h
  rw [List.foldl_append, List.foldl_append, hf.foldl_again]

end IsCheckpoint
end Lib
