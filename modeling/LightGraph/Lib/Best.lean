import LightGraph.Lib.PartialSort

/-!
# The best of a list

To sort the best first and cut behind the `k`-th is to ask for the `k` best. Nothing that is left
out comes before anything that is not, and there is as much of it as there has to be; among equals
the order of the list decides, and nothing more is said.
-/

set_option autoImplicit false

namespace Lib

open scoped List

variable {α : Type} {before : α → α → Prop}

/-- The `k` best of a list, the best first. -/
structure Best (before : α → α → Prop) (k : Nat) (l best : List α) : Prop where
  ordered : best.Pairwise before
  length : best.length = min k l.length
  rest : ∃ rest, best ++ rest ~ l ∧ ∀ a ∈ best, ∀ b ∈ rest, before a b

/-- What was sorted is cut. -/
theorem best_take {l sorted : List α} (hsorted : sorted.Pairwise before) (hperm : sorted ~ l)
    (k : Nat) : Best before k l (sorted.take k) where
  ordered := hsorted.sublist (List.take_sublist k sorted)
  length := by rw [List.length_take, hperm.length_eq]
  rest := by
    have hsplit : sorted.take k ++ sorted.drop k = sorted := List.take_append_drop k sorted
    refine ⟨sorted.drop k, by rw [hsplit]; exact hperm, fun a ha b hb => ?_⟩
    rw [← hsplit] at hsorted
    exact (List.pairwise_append.mp hsorted).2.2 a ha b hb

theorem best_sortBy {cmp : α → α → Option Ordering} (h : ByKey cmp) {l sorted : List α}
    (hsort : sortBy cmp l = some sorted) (k : Nat) :
    Best (Precedes cmp) k l (sorted.take k) :=
  best_take (ordered_sortBy h hsort) (perm_sortBy hsort) k

namespace Best
variable {k : Nat} {l best : List α}

theorem mem (h : Best before k l best) {a : α} (ha : a ∈ best) : a ∈ l := by
  obtain ⟨rest, hperm, -⟩ := h.rest
  exact hperm.mem_iff.mp (List.mem_append_left rest ha)

/-- What is left out comes before nothing that is not. -/
theorem before_of_not_mem (h : Best before k l best) {a b : α} (ha : a ∈ best) (hb : b ∈ l)
    (hout : b ∉ best) : before a b := by
  obtain ⟨rest, hperm, hle⟩ := h.rest
  exact hle a ha b ((List.mem_append.mp (hperm.mem_iff.mpr hb)).resolve_left hout)

theorem sublist_perm (h : Best before k l best) : ∃ l', l' ~ l ∧ best.Sublist l' := by
  obtain ⟨rest, hperm, -⟩ := h.rest
  exact ⟨_, hperm, List.sublist_append_left best rest⟩

/-- With room for all nothing is left out. -/
theorem perm (h : Best before k l best) (hk : l.length ≤ k) : best ~ l := by
  obtain ⟨rest, hperm, -⟩ := h.rest
  have hlen := hperm.length_eq
  rw [List.length_append, h.length, Nat.min_eq_right hk] at hlen
  obtain rfl := List.eq_nil_of_length_eq_zero (Nat.add_eq_left.mp hlen)
  rwa [List.append_nil] at hperm

end Best
end Lib
