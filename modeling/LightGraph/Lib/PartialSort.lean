import Mathlib.Data.List.Sort
import Mathlib.Order.Compare

/-!
# Sorting by a key that may be missing

A comparison by a key is no total order where elements can be without one: it has no answer on them.
A sort that insists on an answer fails, and it must fail wherever there are two elements and one has
no key, since to place an element it has to compare it with another. Otherwise it sorts.
-/

set_option autoImplicit false

namespace Lib

open scoped List

variable {α β : Type}

/-! ## Keys that may be missing -/

/-- Two keys compared, if there are two. -/
def compareKeys [LinearOrder β] : Option β → Option β → Option Ordering
  | some x, some y => some (compare x y)
  | _, _ => none

/-- The comparison is that of a key. -/
def ComparesBy [LinearOrder β] (cmp : α → α → Option Ordering) (key : α → Option β) : Prop :=
  ∀ a b, cmp a b = compareKeys (key a) (key b)

/-- The comparison is that of some key. -/
def ByKey (cmp : α → α → Option Ordering) : Prop :=
  ∃ (β : Type) (_ : LinearOrder β) (key : α → Option β), ComparesBy cmp key

theorem compareKeys_toDual [LinearOrder β] (x y : Option β) :
    compareKeys (x.map OrderDual.toDual) (y.map OrderDual.toDual) = compareKeys y x := by
  cases x <;> cases y <;> rfl

/-- The same comparison the other way round, of what `f` makes of the elements. -/
theorem ByKey.reverse {γ : Type} {cmp : α → α → Option Ordering} (h : ByKey cmp) (f : γ → α) :
    ByKey fun a b => cmp (f b) (f a) := by
  obtain ⟨β, _, key, hkey⟩ := h
  refine ⟨βᵒᵈ, inferInstance, fun a => (key (f a)).map OrderDual.toDual, fun a b => ?_⟩
  exact (hkey (f b) (f a)).trans (compareKeys_toDual _ _).symm

/-! ## The sort -/

/-- Put an element in front of the first that it does not come after. -/
def insertBy (cmp : α → α → Option Ordering) (a : α) : List α → Option (List α)
  | [] => some [a]
  | b :: l =>
    match cmp a b with
    | none => none
    | some .gt => (insertBy cmp a l).map (b :: ·)
    | some _ => some (a :: b :: l)

/-- A stable sort, `none` where a comparison has no answer. -/
def sortBy (cmp : α → α → Option Ordering) : List α → Option (List α)
  | [] => some []
  | a :: l => (sortBy cmp l).bind (insertBy cmp a)

theorem perm_insertBy {cmp : α → α → Option Ordering} {a : α} {l : List α} : ∀ {l' : List α},
    insertBy cmp a l = some l' → l' ~ a :: l := by
  induction l with
  | nil =>
    intro l' h
    obtain rfl := Option.some.inj h
    exact List.Perm.refl _
  | cons b l ih =>
    intro l' h
    rw [insertBy] at h
    split at h
    · cases h
    · obtain ⟨l'', hrest, rfl⟩ := Option.map_eq_some_iff.mp h
      exact ((ih hrest).cons b).trans (List.Perm.swap a b l)
    · obtain rfl := Option.some.inj h
      exact List.Perm.refl _

theorem perm_sortBy {cmp : α → α → Option Ordering} {l : List α} : ∀ {l' : List α},
    sortBy cmp l = some l' → l' ~ l := by
  induction l with
  | nil =>
    intro l' h
    obtain rfl := Option.some.inj h
    exact List.Perm.refl _
  | cons a l ih =>
    intro l' h
    obtain ⟨sorted, hrest, hins⟩ := Option.bind_eq_some_iff.mp h
    exact (perm_insertBy hins).trans ((ih hrest).cons a)

section Keys
variable [LinearOrder β] {cmp : α → α → Option Ordering} {key : α → Option β}

theorem ComparesBy.eq_none_iff (h : ComparesBy cmp key) {a b : α} :
    cmp a b = none ↔ key a = none ∨ key b = none := by
  rw [h]
  cases key a <;> cases key b <;> simp [compareKeys]

/-- Who has no key cannot be compared even with itself. -/
theorem ComparesBy.self_iff (h : ComparesBy cmp key) {a : α} : cmp a a = none ↔ key a = none := by
  rw [h.eq_none_iff, or_self]

theorem insertBy_eq_none_iff (h : ComparesBy cmp key) {a : α} {l : List α}
    (hl : 2 ≤ l.length → ∀ b ∈ l, key b ≠ none) :
    insertBy cmp a l = none ↔ l ≠ [] ∧ ∃ b ∈ a :: l, key b = none := by
  induction l with
  | nil => simp [insertBy]
  | cons b l ih =>
    have hrest : 2 ≤ l.length → ∀ c ∈ l, key c ≠ none := fun hlen c hc =>
      hl (Nat.le_succ_of_le hlen) c (List.mem_cons_of_mem b hc)
    rw [insertBy]
    cases hcmp : cmp a b with
    | none =>
      rcases h.eq_none_iff.mp hcmp with hkey | hkey
      · exact iff_of_true rfl ⟨by simp, a, List.mem_cons_self, hkey⟩
      · exact iff_of_true rfl ⟨by simp, b, by simp, hkey⟩
    | some o =>
      -- the two have a key, and if there are more so have they
      have hab : ¬ (key a = none ∨ key b = none) := fun hno => by
        rw [h.eq_none_iff.mpr hno] at hcmp
        cases hcmp
      have hall : ¬ ∃ c ∈ a :: b :: l, key c = none := by
        rintro ⟨c, hc, hkey⟩
        rcases List.mem_cons.mp hc with rfl | hc
        · exact hab (Or.inl hkey)
        rcases List.mem_cons.mp hc with rfl | hcl
        · exact hab (Or.inr hkey)
        · have hpos := List.length_pos_of_mem hcl
          exact hl (Nat.succ_le_succ hpos) c hc hkey
      refine iff_of_false ?_ fun hno => hall hno.2
      cases o with
      | gt =>
        rw [Option.map_eq_none_iff, ih hrest]
        rintro ⟨-, c, hc, hkey⟩
        refine hall ⟨c, ?_, hkey⟩
        rcases List.mem_cons.mp hc with rfl | hc
        · exact List.mem_cons_self
        · exact List.mem_cons_of_mem a (List.mem_cons_of_mem b hc)
      | lt => simp
      | eq => simp

theorem sortBy_eq_none_iff_key (h : ComparesBy cmp key) {l : List α} :
    sortBy cmp l = none ↔ 2 ≤ l.length ∧ ∃ a ∈ l, key a = none := by
  induction l with
  | nil => simp [sortBy]
  | cons a l ih =>
    rw [sortBy]
    cases hrest : sortBy cmp l with
    | none =>
      obtain ⟨hlen, b, hb, hkey⟩ := ih.mp hrest
      exact iff_of_true rfl ⟨Nat.le_succ_of_le hlen, b, List.mem_cons_of_mem a hb, hkey⟩
    | some sorted =>
      have hperm := perm_sortBy hrest
      have hkeys : 2 ≤ sorted.length → ∀ b ∈ sorted, key b ≠ none := by
        intro hlen b hb hkey
        rw [ih.mpr ⟨hperm.length_eq ▸ hlen, b, hperm.mem_iff.mp hb, hkey⟩] at hrest
        cases hrest
      have hne : sorted ≠ [] ↔ 2 ≤ (a :: l).length := by
        rw [List.length_cons, ← hperm.length_eq, ← List.length_pos_iff]
        omega
      have hmem : ∀ b, b ∈ a :: sorted ↔ b ∈ a :: l := fun b => (hperm.cons a).mem_iff
      rw [Option.bind_some, insertBy_eq_none_iff h hkeys, hne]
      simp only [hmem]

/-! ## What is sorted is in order -/

/-- `a` has been compared with `b` and need not come after it. -/
def Precedes (cmp : α → α → Option Ordering) (a b : α) : Prop :=
  ∃ o, cmp a b = some o ∧ o ≠ .gt

theorem ComparesBy.precedes_iff (h : ComparesBy cmp key) {a b : α} :
    Precedes cmp a b ↔ ∃ x y, key a = some x ∧ key b = some y ∧ x ≤ y := by
  unfold Precedes
  rw [h]
  cases key a with
  | none => simp [compareKeys]
  | some x =>
    cases key b with
    | none => simp [compareKeys]
    | some y => simp [compareKeys, compare_le_iff_le]

theorem ComparesBy.precedes_trans (h : ComparesBy cmp key) {a b c : α} (hab : Precedes cmp a b)
    (hbc : Precedes cmp b c) : Precedes cmp a c := by
  obtain ⟨x, y, hx, hy, hxy⟩ := h.precedes_iff.mp hab
  obtain ⟨y', z, hy', hz, hyz⟩ := h.precedes_iff.mp hbc
  obtain rfl := Option.some.inj (hy.symm.trans hy')
  exact h.precedes_iff.mpr ⟨x, z, hx, hz, hxy.trans hyz⟩

theorem ComparesBy.precedes_of_gt (h : ComparesBy cmp key) {a b : α} (hgt : cmp a b = some .gt) :
    Precedes cmp b a := by
  rw [h] at hgt
  rw [h.precedes_iff]
  cases hx : key a with
  | none => simp [hx, compareKeys] at hgt
  | some x =>
    cases hy : key b with
    | none => simp [hx, hy, compareKeys] at hgt
    | some y =>
      simp only [hx, hy, compareKeys, Option.some.injEq, compare_gt_iff_gt] at hgt
      exact ⟨y, x, rfl, rfl, le_of_lt hgt⟩

theorem ordered_insertBy (h : ComparesBy cmp key) {a : α} {l : List α} : ∀ {l' : List α},
    l.Pairwise (Precedes cmp) → insertBy cmp a l = some l' → l'.Pairwise (Precedes cmp) := by
  induction l with
  | nil =>
    intro l' _ hins
    obtain rfl := Option.some.inj hins
    exact List.pairwise_singleton _ a
  | cons b l ih =>
    intro l' hl hins
    obtain ⟨hb, hrest⟩ := List.pairwise_cons.mp hl
    -- in front of `b`, and so of everything
    have hfront : ∀ {o}, cmp a b = some o → o ≠ .gt →
        (a :: b :: l).Pairwise (Precedes cmp) := by
      intro o hcmp ho
      have hab : Precedes cmp a b := ⟨o, hcmp, ho⟩
      refine List.pairwise_cons.mpr ⟨fun c hc => ?_, hl⟩
      rcases List.mem_cons.mp hc with rfl | hc
      · exact hab
      · exact h.precedes_trans hab (hb c hc)
    rw [insertBy] at hins
    split at hins
    · cases hins
    · rename_i hgt
      obtain ⟨l'', hplaced, rfl⟩ := Option.map_eq_some_iff.mp hins
      refine List.pairwise_cons.mpr ⟨fun c hc => ?_, ih hrest hplaced⟩
      rcases List.mem_cons.mp ((perm_insertBy hplaced).mem_iff.mp hc) with rfl | hc
      · exact h.precedes_of_gt hgt
      · exact hb c hc
    · rename_i o hno hcmp
      obtain rfl := Option.some.inj hins
      exact hfront hcmp fun ho => hno (ho ▸ rfl)

theorem ordered_sortBy_key (h : ComparesBy cmp key) {l : List α} : ∀ {l' : List α},
    sortBy cmp l = some l' → l'.Pairwise (Precedes cmp) := by
  induction l with
  | nil =>
    intro l' hsort
    obtain rfl := Option.some.inj hsort
    exact List.Pairwise.nil
  | cons a l ih =>
    intro l' hsort
    obtain ⟨sorted, hrest, hins⟩ := Option.bind_eq_some_iff.mp hsort
    exact ordered_insertBy h (ih hrest) hins

end Keys

/-- **A sort fails just where one of several elements cannot be compared.** -/
theorem sortBy_eq_none_iff {cmp : α → α → Option Ordering} (h : ByKey cmp) {l : List α} :
    sortBy cmp l = none ↔ 2 ≤ l.length ∧ ∃ a ∈ l, cmp a a = none := by
  obtain ⟨β, _, key, hkey⟩ := h
  rw [sortBy_eq_none_iff_key hkey]
  simp only [hkey.self_iff]

/-- What is sorted is in order. -/
theorem ordered_sortBy {cmp : α → α → Option Ordering} (h : ByKey cmp) {l l' : List α}
    (hsort : sortBy cmp l = some l') : l'.Pairwise (Precedes cmp) := by
  obtain ⟨β, _, key, hkey⟩ := h
  exact ordered_sortBy_key hkey hsort

end Lib
