import LightGraph.Query.Builder

/-!
# Filters as an intersection

However the filters of a query are nested when it is built, they mean the intersection of what each
of them means (`filters_mean_intersection`), so neither their order nor how often one is given
makes a difference. A predicate whose evaluation panics is not lost on the way: then, and only then,
the whole evaluation panics.
-/

set_option autoImplicit false

namespace LightGraph

/-! ## Intersections of bitmaps -/

/-- `r` is the intersection of the results `rs`, where `none` is a panic. -/
structure IsIntersection (r : Option RoaringBitmap) (rs : List (Option RoaringBitmap)) : Prop where
  panics : r = none ↔ none ∈ rs
  mem : ∀ bm, r = some bm → ∀ x, x ∈ bm ↔ ∀ bm', some bm' ∈ rs → x ∈ bm'

namespace IsIntersection
variable {r r' s : Option RoaringBitmap} {rs rs' : List (Option RoaringBitmap)}

theorem single (r : Option RoaringBitmap) : IsIntersection r [r] where
  panics := by
    rw [List.mem_singleton]
    exact eq_comm
  mem := by
    rintro bm rfl x
    constructor
    · intro hx bm' hmem
      obtain rfl := Option.some.inj (List.mem_singleton.mp hmem)
      exact hx
    · exact fun h => h bm List.mem_cons_self

/-- One more result, intersected with those before. -/
theorem snoc {bm bm' : RoaringBitmap} (h : IsIntersection (some bm) rs) :
    IsIntersection (some (bm ∩ bm')) (rs ++ [some bm']) where
  panics := by
    have hbefore : none ∉ rs := fun hmem => Option.some_ne_none bm (h.panics.mpr hmem)
    simp only [List.mem_append, List.mem_singleton, hbefore, reduceCtorEq, or_self]
  mem := by
    intro both hboth x
    obtain rfl := Option.some.inj hboth
    rw [Finset.mem_inter, h.mem bm rfl x]
    constructor
    · rintro ⟨hbefore, hlast⟩ bm'' hmem
      rcases List.mem_append.mp hmem with hmem | hmem
      · exact hbefore bm'' hmem
      · obtain rfl := Option.some.inj (List.mem_singleton.mp hmem)
        exact hlast
    · intro hall
      exact ⟨fun bm'' hmem => hall bm'' (List.mem_append_left _ hmem),
        hall bm' (List.mem_append_right _ List.mem_cons_self)⟩

theorem of_panic (h : none ∈ rs) : IsIntersection none rs where
  panics := iff_of_true rfl h
  mem := fun bm hsome => absurd hsome (Option.some_ne_none bm).symm

/-- There is one intersection, whatever the order and the number of times. -/
theorem unique (h : IsIntersection r rs) (h' : IsIntersection r' rs')
    (hsame : ∀ s, s ∈ rs ↔ s ∈ rs') : r = r' := by
  cases r with
  | none => exact (h'.panics.mpr ((hsame none).mp (h.panics.mp rfl))).symm
  | some bm =>
    cases r' with
    | none => exact absurd (h.panics.mpr ((hsame none).mpr (h'.panics.mp rfl))) (by simp)
    | some bm' =>
      have hmem : ∀ x, x ∈ bm ↔ x ∈ bm' := by
        intro x
        rw [h.mem bm rfl x, h'.mem bm' rfl x]
        exact forall_congr' fun s => imp_congr_left (hsame (some s))
      exact congrArg some (Finset.ext hmem)

end IsIntersection

/-! ## The nested predicate -/

/-- Where an operand's evaluation panics, that of `And` does. -/
theorem evaluate_and_eq_none {ix : PropertyIndex} {p q : Predicate} :
    ix.evaluate (.and p q) = none ↔ ix.evaluate p = none ∨ ix.evaluate q = none := by
  rw [PropertyIndex.evaluate]
  cases ix.evaluate p <;> cases ix.evaluate q <;> simp

/-- By the last filter: it is the right operand of the outermost `And`. -/
theorem isIntersection_foldl (ix : PropertyIndex) (p : Predicate) (ps : List Predicate) :
    IsIntersection (ix.evaluate (ps.foldl .and p)) ((p :: ps).map ix.evaluate) := by
  induction ps using List.reverseRecOn with
  | nil => exact .single (ix.evaluate p)
  | append_singleton ps q ih =>
    have hmap : (p :: (ps ++ [q])).map ix.evaluate =
        (p :: ps).map ix.evaluate ++ [ix.evaluate q] := by
      rw [← List.cons_append, List.map_append, List.map_singleton]
    rw [List.foldl_append, List.foldl_cons, List.foldl_nil, hmap]
    cases hbefore : ix.evaluate (ps.foldl .and p) with
    | none =>
      rw [evaluate_and_eq_none.mpr (Or.inl hbefore)]
      exact .of_panic (List.mem_append_left _ (ih.panics.mp hbefore))
    | some bm =>
      cases hlast : ix.evaluate q with
      | none =>
        rw [evaluate_and_eq_none.mpr (Or.inr hlast)]
        exact .of_panic (List.mem_append_right _ List.mem_cons_self)
      | some bm' =>
        rw [hbefore] at ih
        rw [PropertyIndex.evaluate, hbefore, hlast]
        exact ih.snoc

namespace QueryBuilder

theorem combinedPred_eq_none (ps : List Predicate) : combinedPred ps = none ↔ ps = [] := by
  cases ps <;> simp [combinedPred]

theorem combinedPred_isIntersection (ix : PropertyIndex) {ps : List Predicate} {p : Predicate}
    (h : combinedPred ps = some p) : IsIntersection (ix.evaluate p) (ps.map ix.evaluate) := by
  cases ps with
  | nil => exact absurd h (by simp [combinedPred])
  | cons q qs =>
    obtain rfl := Option.some.inj h
    exact isIntersection_foldl ix q qs

theorem combinedPred_eq_none_congr {ps qs : List Predicate} (h : ∀ q, q ∈ ps ↔ q ∈ qs) :
    combinedPred ps = none ↔ combinedPred qs = none := by
  rw [combinedPred_eq_none, combinedPred_eq_none, List.eq_nil_iff_forall_not_mem,
    List.eq_nil_iff_forall_not_mem]
  exact forall_congr' fun q => not_congr (h q)

theorem evaluate_combinedPred_congr (ix : PropertyIndex) {ps qs : List Predicate}
    (h : ∀ q, q ∈ ps ↔ q ∈ qs) :
    (combinedPred ps).map ix.evaluate = (combinedPred qs).map ix.evaluate := by
  have hnone := combinedPred_eq_none_congr h
  cases hp : combinedPred ps with
  | none => rw [hnone.mp hp]
  | some p =>
    cases hq : combinedPred qs with
    | none => exact absurd (hp.symm.trans (hnone.mpr hq)) (Option.some_ne_none p)
    | some q =>
      refine congrArg some ((combinedPred_isIntersection ix hp).unique
        (combinedPred_isIntersection ix hq) fun r => ?_)
      simp only [List.mem_map, h]

/-! ## A chain of calls -/

variable {α : Type}

/-- The predicates given to `filter`, in order. -/
def filters (calls : List (BuilderCall α)) : List Predicate :=
  calls.filterMap fun call =>
    match call with
    | .filter pred => some pred
    | _ => none

theorem predicates_foldl (calls : List (BuilderCall α)) : ∀ b : QueryBuilder α,
    (calls.foldl call b).predicates = b.predicates ++ filters calls := by
  induction calls with
  | nil => exact fun b => (List.append_nil _).symm
  | cons c calls ih =>
    intro b
    rw [List.foldl_cons, ih]
    cases c with
    | filter pred => exact List.append_assoc _ _ _
    | fulltext property query => rfl
    | vector property query k ef => rfl
    | fusion method => rfl
    | filterTiming timing => rfl
    | limit n => rfl

variable [Zero α] [One α]

theorem predicate_build (calls : List (BuilderCall α)) :
    (chain calls).build.predicate = combinedPred (filters calls) :=
  congrArg combinedPred (predicates_foldl calls new)

/-- **Chained filters mean their intersection.** There is no predicate just where there is no
filter; where there is one, it evaluates to the intersection of all of them; and two chains that
filter by the same predicates, in any order and any number of times, evaluate alike. -/
theorem filters_mean_intersection (ix : PropertyIndex) (calls : List (BuilderCall α)) :
    ((chain calls).build.predicate = none ↔ filters calls = []) ∧
    (∀ p, (chain calls).build.predicate = some p →
      IsIntersection (ix.evaluate p) ((filters calls).map ix.evaluate)) ∧
    ∀ calls' : List (BuilderCall α), (∀ q, q ∈ filters calls ↔ q ∈ filters calls') →
      (chain calls).build.predicate.map ix.evaluate =
        (chain calls').build.predicate.map ix.evaluate := by
  refine ⟨?_, ?_, ?_⟩
  · rw [predicate_build, combinedPred_eq_none]
  · intro p hp
    rw [predicate_build] at hp
    exact combinedPred_isIntersection ix hp
  · intro calls' hsame
    rw [predicate_build, predicate_build]
    exact evaluate_combinedPred_congr ix hsame

end QueryBuilder
end LightGraph
