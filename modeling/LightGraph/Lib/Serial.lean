import Mathlib.Tactic.Common

/-!
# Several lists of actions done at once

Threads that each work through a list of their own are compared with the same threads run one
after the other: `serial` is the state the second way leaves. An action taken out of turn —
with threads behind its own that have already acted — is made up for if it commutes with what
those have done. `serial_act` is the step lemma of that argument, and the only thing to know of
a schedule is that each of its steps meets it.
-/

set_option autoImplicit false

namespace Lib

variable {σ α : Type}

/-- Two actions may change places. -/
def Commutes (f : σ → α → σ) (a b : α) : Prop := ∀ s, f (f s a) b = f (f s b) a

/-- One list after the other. -/
def serial (f : σ → α → σ) (s : σ) (threads : List (List α)) : σ := threads.flatten.foldl f s

variable {f : σ → α → σ}

theorem serial_cons (s : σ) (as : List α) (threads : List (List α)) :
    serial f s (as :: threads) = serial f (as.foldl f s) threads := by
  rw [serial, serial, List.flatten_cons, List.foldl_append]

theorem serial_append (s : σ) (threads threads' : List (List α)) :
    serial f s (threads ++ threads') = serial f (serial f s threads) threads' := by
  rw [serial, serial, serial, List.flatten_append, List.foldl_append]

/-- What commutes with every action of a list moves behind it. -/
theorem foldl_commutes {a : α} {bs : List α} (h : ∀ b ∈ bs, Commutes f a b) (s : σ) :
    bs.foldl f (f s a) = f (bs.foldl f s) a := by
  induction bs generalizing s with
  | nil => rfl
  | cons b bs ih =>
    rw [List.foldl_cons, List.foldl_cons, h b List.mem_cons_self s]
    exact ih (fun b' hb' => h b' (List.mem_cons_of_mem b hb')) (f s b)

/-- **A thread acts.** The state one after the other moves by the same action, if that commutes
with all the threads behind have done. -/
theorem serial_act {threads : List (List α)} {i : Nat} {as : List α} {a : α}
    (hi : threads[i]? = some as)
    (h : ∀ j bs, i < j → threads[j]? = some bs → ∀ b ∈ bs, Commutes f a b) (s : σ) :
    serial f s (threads.set i (as ++ [a])) = f (serial f s threads) a := by
  induction threads generalizing i s with
  | nil => exact absurd hi (by simp)
  | cons bs threads ih =>
    cases i with
    | zero =>
      obtain rfl : bs = as := by simpa using hi
      rw [List.set_cons_zero, serial_cons, serial_cons, List.foldl_append]
      apply foldl_commutes
      intro b hb
      obtain ⟨cs, hcs, hbc⟩ := List.mem_flatten.mp hb
      obtain ⟨j, hj⟩ := List.mem_iff_getElem?.mp hcs
      exact h (j + 1) cs (Nat.succ_pos j) (by simpa using hj) b hbc
    | succ i =>
      rw [List.set_cons_succ, serial_cons, serial_cons]
      apply ih (by simpa using hi)
      intro j cs hij hj
      exact h (j + 1) cs (Nat.succ_lt_succ hij) (by simpa using hj)

end Lib
