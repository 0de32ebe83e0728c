import LightGraph.Lib.Machine
import Mathlib.Data.List.Count
import Mathlib.Data.List.Perm.Basic

/-!
# Threads over a shared state

Any number of threads, each at its own point of its own program, and one state they share. A
schedule says who moves next and how; the mover's program says what that does to the shared
state and where the mover is then. So every interleaving is a schedule, and a thread knows of
the others only what they do to the shared state.

Three rules take an invariant from the single move to the schedule. What every thread knows of
the shared state holds on if the mover's own move keeps it and nobody else's move breaks it
(`Threads.step_each`). Things that threads hold are counted by adding what the mover gained and
taking away what it lost (`Threads.count_step`); and a thing some thread holds is held still,
or the mover was the one and let go (`Threads.held_step`).
-/

set_option autoImplicit false

namespace Lib

open scoped List

/-! ## Lists of which one element changes -/

section Lists
variable {α β : Type} {l : List α} {i : Nat} {a : α}

theorem flatMap_perm (f : α → List β) (h : l[i]? = some a) :
    l.flatMap f ~ f a ++ (l.eraseIdx i).flatMap f := by
  obtain ⟨hlt, rfl⟩ := List.getElem?_eq_some_iff.mp h
  exact (List.getElem_cons_eraseIdx_perm hlt).symm.flatMap_right f

theorem flatMap_set_perm (f : α → List β) (b : α) (h : l[i]? = some a) :
    (l.set i b).flatMap f ~ f b ++ (l.eraseIdx i).flatMap f := by
  obtain ⟨hlt, -⟩ := List.getElem?_eq_some_iff.mp h
  exact (List.set_perm_cons_eraseIdx hlt b).flatMap_right f

theorem flatMap_set_eq (f : α → List β) {b : α} (h : l[i]? = some a) (hf : f b = f a) :
    (l.set i b).flatMap f = l.flatMap f := by
  obtain ⟨hlt, rfl⟩ := List.getElem?_eq_some_iff.mp h
  have hmap : (l.map f).set i (f b) = l.map f := by
    rw [hf, ← List.getElem_map f (h := by rw [List.length_map]; exact hlt), List.set_getElem_self]
  rw [List.flatMap_def, List.flatMap_def, List.map_set, hmap]

/-- What two elements at different places hold, no two hold alike. -/
theorem flatMap_unique {f : α → List β} (hnodup : (l.flatMap f).Nodup) {j : Nat} {b : α}
    (hi : l[i]? = some a) (hj : l[j]? = some b) (hne : i ≠ j) {x : β} (hx : x ∈ f a) :
    x ∉ f b := by
  intro hb
  have hrest := (flatMap_perm f hi).nodup_iff.mp hnodup
  have hother : x ∈ (l.eraseIdx i).flatMap f :=
    List.mem_flatMap.mpr ⟨b, List.mem_eraseIdx_iff_getElem?.mpr ⟨j, hne.symm, hj⟩, hb⟩
  exact (List.nodup_append.mp hrest).2.2 x hx x hother rfl

/-- What a list with one more element has at a place. -/
theorem getElem?_concat_eq_some {b : α} :
    (l ++ [b])[i]? = some a ↔ l[i]? = some a ∨ i = l.length ∧ b = a := by
  rcases Nat.lt_trichotomy i l.length with hlt | rfl | hgt
  · rw [List.getElem?_append_left hlt]
    exact ⟨Or.inl, fun h => h.resolve_right fun hi => Nat.ne_of_lt hlt hi.1⟩
  · rw [List.getElem?_concat_length, List.getElem?_eq_none (Nat.le_refl _)]
    simp
  · have hout : (l ++ [b]).length ≤ i := by
      rw [List.length_append, List.length_singleton]
      exact hgt
    rw [List.getElem?_eq_none hout, List.getElem?_eq_none (Nat.le_of_lt hgt)]
    simp [Nat.ne_of_gt hgt]

/-- What a list with one element changed has at a place. -/
theorem getElem?_set_eq_some {b : α} {j : Nat} (h : (l.set i b)[j]? = some a) :
    i ≠ j ∧ l[j]? = some a ∨ i = j ∧ b = a := by
  rw [List.getElem?_set] at h
  split at h
  · rename_i hij
    split at h
    · exact Or.inr ⟨hij, Option.some.inj h⟩
    · exact absurd h (by simp)
  · rename_i hij
    exact Or.inl ⟨hij, h⟩

/-- Two lists from which the elements at one place are taken. -/
theorem getElem?_eraseIdx_pair {l' : List β} {k : Nat} {b : β}
    (ha : (l.eraseIdx i)[k]? = some a) (hb : (l'.eraseIdx i)[k]? = some b) :
    ∃ k' : Nat, l[k']? = some a ∧ l'[k']? = some b := by
  rw [List.getElem?_eraseIdx] at ha hb
  split at ha
  · rename_i hk
    rw [if_pos hk] at hb
    exact ⟨k, ha, hb⟩
  · rename_i hk
    rw [if_neg hk] at hb
    exact ⟨k + 1, ha, hb⟩

end Lists

/-! ## The machine -/

structure Threads (σ π : Type) where
  shared : σ
  threads : List π

namespace Threads
variable {σ π μ : Type} {exec : σ → π → μ → Option (σ × π)}

/-- One move of the `i`-th thread. -/
def step (exec : σ → π → μ → Option (σ × π)) (s : Threads σ π) (a : Nat × μ) :
    Option (Threads σ π) :=
  match s.threads[a.1]? with
  | none => none
  | some p =>
    match exec s.shared p a.2 with
    | none => none
    | some (shared, p') => some { shared, threads := s.threads.set a.1 p' }

variable {s t : Threads σ π} {i : Nat} {m : μ}

theorem step_inv (h : step exec s (i, m) = some t) :
    ∃ p shared p', s.threads[i]? = some p ∧ exec s.shared p m = some (shared, p') ∧
      t = { shared, threads := s.threads.set i p' } := by
  simp only [step] at h
  split at h
  · exact absurd h (by simp)
  · rename_i p hp
    split at h
    · exact absurd h (by simp)
    · rename_i shared p' hexec
      exact ⟨p, shared, p', hp, hexec, (Option.some.inj h).symm⟩

theorem step_of_exec {p p' : π} {shared : σ} (hi : s.threads[i]? = some p)
    (h : exec s.shared p m = some (shared, p')) :
    step exec s (i, m) = some { shared, threads := s.threads.set i p' } := by
  simp only [step, hi, h]

/-- **What each thread knows.** -/
theorem step_each {G : σ → Prop} {J : σ → π → Prop}
    (hs : G s.shared ∧ ∀ q ∈ s.threads, J s.shared q)
    (hstep : step exec s (i, m) = some t)
    (hown : ∀ p shared p', s.threads[i]? = some p → exec s.shared p m = some (shared, p') →
      G shared ∧ J shared p')
    (hothers : ∀ p shared p' q, s.threads[i]? = some p → exec s.shared p m = some (shared, p') →
      q ∈ s.threads → J s.shared q → J shared q) :
    G t.shared ∧ ∀ q ∈ t.threads, J t.shared q := by
  obtain ⟨p, shared, p', hp, hexec, rfl⟩ := step_inv hstep
  obtain ⟨hg, hj⟩ := hown p shared p' hp hexec
  refine ⟨hg, fun q hq => ?_⟩
  rcases List.mem_or_eq_of_mem_set hq with hq | rfl
  · exact hothers p shared p' q hp hexec hq (hs.2 q hq)
  · exact hj

variable {β : Type}

/-- **What the threads hold**, counted. -/
theorem count_step [DecidableEq β] (f : π → List β) {p : π} (hp : s.threads[i]? = some p)
    (p' : π) (b : β) :
    ((s.threads.set i p').flatMap f).count b + (f p).count b
      = (s.threads.flatMap f).count b + (f p').count b := by
  have hold := List.perm_iff_count.mp (flatMap_perm f hp) b
  have hnew := List.perm_iff_count.mp (flatMap_set_perm f p' hp) b
  rw [List.count_append] at hold hnew
  omega

/-- **What a thread holds** is held still, or the mover let go of it. -/
theorem held_step (f : π → List β) {p : π} (hp : s.threads[i]? = some p) (p' : π) {b : β}
    (hb : b ∈ s.threads.flatMap f) :
    b ∈ (s.threads.set i p').flatMap f ∨ b ∈ f p ∧ b ∉ f p' := by
  rcases List.mem_append.mp ((flatMap_perm f hp).mem_iff.mp hb) with hown | hother
  · by_cases hkept : b ∈ f p'
    · exact Or.inl ((flatMap_set_perm f p' hp).mem_iff.mpr (List.mem_append_left _ hkept))
    · exact Or.inr ⟨hown, hkept⟩
  · exact Or.inl ((flatMap_set_perm f p' hp).mem_iff.mpr (List.mem_append_right _ hother))

/-- The mover holds what its new point says. -/
theorem held_of_mover (f : π → List β) {p p' : π} (hp : s.threads[i]? = some p) {b : β}
    (hb : b ∈ f p') : b ∈ (s.threads.set i p').flatMap f :=
  (flatMap_set_perm f p' hp).mem_iff.mpr (List.mem_append_left _ hb)

/-! ## One thread, nobody else -/

/-- The moves of one thread with nobody in between. -/
def alone (exec : σ → π → μ → Option (σ × π)) (s : σ × π) (moves : List μ) : Option (σ × π) :=
  run (fun s m => exec s.1 s.2 m) s moves

/-- A schedule may let one thread run alone. -/
theorem run_alone {moves : List μ} : ∀ {s : Threads σ π} {p p' : π} {shared : σ},
    s.threads[i]? = some p → alone exec (s.shared, p) moves = some (shared, p') →
    run (step exec) s (moves.map (i, ·)) = some { shared, threads := s.threads.set i p' } := by
  induction moves with
  | nil =>
    intro s p p' shared hi h
    obtain ⟨rfl, rfl⟩ := Prod.mk.inj (Option.some.inj h)
    obtain ⟨hlt, hget⟩ := List.getElem?_eq_some_iff.mp hi
    rw [← hget, List.set_getElem_self hlt]
    rfl
  | cons m moves ih =>
    intro s p p' shared hi h
    obtain ⟨⟨sh, q⟩, hexec, hrest⟩ := run_cons_inv h
    have hlt := (List.getElem?_eq_some_iff.mp hi).1
    have h' := ih (s := { shared := sh, threads := s.threads.set i q }) (p := q)
      (List.getElem?_set_self hlt) hrest
    rw [List.map_cons, run_cons_of_step (step_of_exec hi hexec), h', List.set_set]

end Threads
end Lib
