import LightGraph.Lib.Progress
import LightGraph.Lib.Threads

/-!
# What threads do, in the order in which they do it

An operation of many steps is atomic to everybody else if one of its steps does what the operation
does and the others show nothing. So each move of a thread is given the operations it performs on an
abstract state, most often none (`emit`), and a schedule has a history, the operations of its moves
in their order. Two things make the threads linearizable. The history is a run of the abstract
machine (`run_history`), and what one thread adds to it is what its own calls ask for, call by call
(`traced_history`). An operation is performed at a move between the beginning of its call and the
end, so that the history respects which call was over before another began.
-/

set_option autoImplicit false

namespace Lib
namespace Threads

variable {σ π μ ε κ α : Type} {exec : σ → π → μ → Option (σ × π)} {emit : σ → π → μ → List ε}

/-- The operations a schedule performs, each with the thread that does. -/
def history (exec : σ → π → μ → Option (σ × π)) (emit : σ → π → μ → List ε) :
    Threads σ π → List (Nat × μ) → List (Nat × ε)
  | _, [] => []
  | s, (i, m) :: moves =>
    match s.threads[i]? with
    | none => []
    | some p =>
      match step exec s (i, m) with
      | none => []
      | some t => (emit s.shared p m).map (i, ·) ++ history exec emit t moves

/-- What one thread has in a list of things of all of them. -/
def ofThread (i : Nat) (l : List (Nat × ε)) : List ε :=
  l.filterMap fun e => if e.1 = i then some e.2 else none

/-- The calls a thread begins. -/
def callsOf (begins : μ → List κ) (i : Nat) (moves : List (Nat × μ)) : List κ :=
  (ofThread i moves).flatMap begins

theorem history_cons {s t : Threads σ π} {i : Nat} {m : μ} {p : π} (hp : s.threads[i]? = some p)
    (h : step exec s (i, m) = some t) (moves : List (Nat × μ)) :
    history exec emit s ((i, m) :: moves)
      = (emit s.shared p m).map (i, ·) ++ history exec emit t moves := by
  rw [history, hp]
  simp only [h]

theorem ofThread_append (i : Nat) (l l' : List (Nat × ε)) :
    ofThread i (l ++ l') = ofThread i l ++ ofThread i l' := List.filterMap_append

theorem ofThread_own (i : Nat) (es : List ε) : ofThread i (es.map (i, ·)) = es := by
  induction es with
  | nil => rfl
  | cons e es ih =>
    rw [List.map_cons, ofThread, List.filterMap_cons, if_pos rfl]
    exact congrArg (e :: ·) ih

theorem ofThread_other {i j : Nat} (h : j ≠ i) (es : List ε) :
    ofThread i (es.map (j, ·)) = [] := by
  induction es with
  | nil => rfl
  | cons e es ih =>
    rw [List.map_cons, ofThread, List.filterMap_cons, if_neg h]
    exact ih

/-- **The history is a run of the abstract machine**, where every move makes the operations it is
said to make. -/
theorem run_history {I : Threads σ π → Prop} {A : α → ε → Option α} {f : σ → α}
    {good : Threads σ π → Nat × μ → Prop}
    (hI : ∀ s a t, I s → good s a → step exec s a = some t → I t)
    (hsim : ∀ s i m p shared p', I s → good s (i, m) → s.threads[i]? = some p →
      exec s.shared p m = some (shared, p') → run A (f s.shared) (emit s.shared p m)
        = some (f shared))
    {s t : Threads σ π} {moves : List (Nat × μ)} (hs : I s)
    (hg : Guarded (step exec) good s moves) (h : run (step exec) s moves = some t) :
    run A (f s.shared) ((history exec emit s moves).map Prod.snd) = some (f t.shared) := by
  induction moves generalizing s with
  | nil =>
    rw [run_nil, Option.some.injEq] at h
    rw [h]
    rfl
  | cons a moves ih =>
    obtain ⟨i, m⟩ := a
    obtain ⟨u, hu, hrest⟩ := run_cons_inv h
    obtain ⟨p, shared, p', hp, hexec, heq⟩ := step_inv hu
    have hnow := hsim s i m p shared p' hs hg.1 hp hexec
    have hshared : u.shared = shared := by rw [heq]
    rw [history_cons hp hu, List.map_append, List.map_map]
    have hown : (emit s.shared p m).map (Prod.snd ∘ (i, ·)) = emit s.shared p m := List.map_id _
    rw [hown, run_append hnow, ← hshared]
    exact ih (hI s (i, m) u hs hg.1 hu) (hg.2 u hu) hrest

/-- **What one thread adds to the history** is told from its own moves. -/
theorem traced_history {begins : μ → List κ} {J : List κ → List ε → π → Prop} {i : Nat}
    (hJ : ∀ sh p m sh' p' cs es, J cs es p → exec sh p m = some (sh', p') →
      J (cs ++ begins m) (es ++ emit sh p m) p')
    {s t : Threads σ π} {moves : List (Nat × μ)} (h : run (step exec) s moves = some t) :
    ∀ {cs : List κ} {es : List ε} {p : π}, s.threads[i]? = some p → J cs es p →
      ∃ p', t.threads[i]? = some p' ∧
        J (cs ++ callsOf begins i moves) (es ++ ofThread i (history exec emit s moves)) p' := by
  induction moves generalizing s with
  | nil =>
    intro cs es p hp hj
    rw [run_nil, Option.some.injEq] at h
    refine ⟨p, h ▸ hp, ?_⟩
    rw [callsOf, history, ofThread, ofThread, List.filterMap_nil, List.filterMap_nil,
      List.flatMap_nil, List.append_nil, List.append_nil]
    exact hj
  | cons a moves ih =>
    intro cs es p hp hj
    obtain ⟨j, m⟩ := a
    obtain ⟨u, hu, hrest⟩ := run_cons_inv h
    obtain ⟨q, shared, q', hq, hexec, heq⟩ := step_inv hu
    have hcalls : callsOf begins i ((j, m) :: moves)
        = (if j = i then begins m else []) ++ callsOf begins i moves := by
      rw [callsOf, ofThread, List.filterMap_cons]
      by_cases hji : j = i
      · simp only [if_pos hji, List.flatMap_cons]
        rfl
      · simp only [if_neg hji, List.nil_append]
        rfl
    rw [history_cons hq hu, ofThread_append, hcalls]
    by_cases hji : j = i
    · subst hji
      obtain rfl := Option.some.inj (hp.symm.trans hq)
      have hu' : u.threads[j]? = some q' := by
        rw [heq]
        exact List.getElem?_set_self (List.getElem?_eq_some_iff.mp hp).1
      rw [if_pos rfl, ofThread_own, ← List.append_assoc, ← List.append_assoc]
      exact ih hrest hu' (hJ _ _ _ _ _ _ _ hj hexec)
    · have hu' : u.threads[i]? = some p := by
        rw [heq]
        exact (List.getElem?_set_ne hji).trans hp
      rw [if_neg hji, ofThread_other hji, List.nil_append, List.nil_append]
      exact ih hrest hu' hj

/-- Where a thread is after a schedule is told from its own moves, too. -/
theorem own_run {J : List μ → π → Prop} {i : Nat}
    (hJ : ∀ sh p m sh' p' ms, J ms p → exec sh p m = some (sh', p') → J (ms ++ [m]) p')
    {s t : Threads σ π} {moves : List (Nat × μ)} (h : run (step exec) s moves = some t) {p : π}
    (hp : s.threads[i]? = some p) (hj : J [] p) :
    ∃ p', t.threads[i]? = some p' ∧ J (ofThread i moves) p' := by
  obtain ⟨p', hp', hj'⟩ := @traced_history σ π μ Unit μ exec (fun _ _ _ => []) (fun m => [m])
    (fun ms _ p => J ms p) i (fun sh p m sh' p' ms _ => hJ sh p m sh' p' ms) s t moves h [] [] p hp
    hj
  rw [List.nil_append, callsOf, List.flatMap_singleton'] at hj'
  exact ⟨p', hp', hj'⟩

end Threads
end Lib
