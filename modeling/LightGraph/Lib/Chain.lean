import Mathlib.Data.Finset.Card
import Mathlib.Logic.Function.Basic
import Mathlib.Logic.Relation

/-!
# Chains of pointers

A heap in which every cell has at most one pointer to follow is a partial function
`f : α → Option α`, `none` where a traversal stops. Two things are said of such a heap.

A *segment* is a list of cells, each pointing at the next (`Segment`): the shape a singly linked
list has in memory. Linking at the head, taking a cell out behind its predecessor and writing
elsewhere are three lemmas about segments.

A traversal need not end. It does from everywhere exactly when the pointers form no cycle
(`acyclic_iff_walk_ends`), and then after as many rounds as there are cells. What keeps a heap
free of cycles is a matter of paths: new pointers that lead where old ones led make none, and
one pointer more makes one exactly when its target reached its cell (`acyclic_update_iff`).
-/

set_option autoImplicit false

namespace Lib

open Relation

variable {α : Type}

/-! ## Traversals -/

/-- The cells visited from a cell on, with the rounds left; `none` if they run out. -/
def walk (f : α → Option α) : Nat → α → Option (List α)
  | 0, _ => none
  | rounds + 1, x =>
    match f x with
    | none => some []
    | some y => (walk f rounds y).map (x :: ·)

/-- The first cell visited that points at the target, if there is one. -/
def seek [DecidableEq α] (f : α → Option α) (target : α) : Nat → α → Option (Option α)
  | 0, _ => none
  | rounds + 1, x =>
    match f x with
    | none => some none
    | some y => if y = target then some (some x) else seek f target rounds y

section Walk
variable {f : α → Option α} {x y : α} {l : List α} {n : Nat}

theorem walk_stop (h : f x = none) (n : Nat) : walk f (n + 1) x = some [] := by
  rw [walk, h]

theorem walk_follow (h : f x = some y) (n : Nat) :
    walk f (n + 1) x = (walk f n y).map (x :: ·) := by
  rw [walk, h]

/-- A traversal that has ended is not changed by further rounds. -/
theorem walk_mono (h : walk f n x = some l) {m : Nat} (hle : n ≤ m) : walk f m x = some l := by
  induction n generalizing x l m with
  | zero => exact absurd h (by simp [walk])
  | succ n ih =>
    obtain ⟨m, rfl⟩ : ∃ k, m = k + 1 := ⟨m - 1, by omega⟩
    cases hf : f x with
    | none =>
      rw [walk_stop hf] at h ⊢
      exact h
    | some y =>
      rw [walk_follow hf] at h ⊢
      obtain ⟨l', hl', rfl⟩ := Option.map_eq_some_iff.mp h
      rw [ih hl' (by omega), Option.map_some]

end Walk

/-! ## Segments -/

/-- The list is the cells from `start` up to, not including, `stop`. -/
def Segment (f : α → Option α) : α → List α → α → Prop
  | start, [], stop => start = stop
  | start, x :: l, stop => start = x ∧ ∃ y, f x = some y ∧ Segment f y l stop

section Segments
variable {f g : α → Option α} {start stop x y : α} {l l' : List α}

theorem Segment.nil (x : α) : Segment f x [] x := rfl

theorem Segment.cons (h : f x = some y) (hl : Segment f y l stop) :
    Segment f x (x :: l) stop := ⟨rfl, y, h, hl⟩

/-- A segment is in the cells it names, and in no other. -/
theorem Segment.congr (h : Segment f start l stop) (hfg : ∀ x ∈ l, g x = f x) :
    Segment g start l stop := by
  induction l generalizing start with
  | nil => exact h
  | cons x l ih =>
    obtain ⟨rfl, y, hy, hl⟩ := h
    exact ⟨rfl, y, (hfg start List.mem_cons_self).trans hy,
      ih hl fun z hz => hfg z (List.mem_cons_of_mem start hz)⟩

/-- A traversal of a segment that ends where nothing follows. -/
theorem Segment.walk_eq (h : Segment f start l stop) (hstop : f stop = none) :
    walk f (l.length + 1) start = some l := by
  induction l generalizing start with
  | nil => rw [show start = stop from h, List.length_nil, walk_stop hstop]
  | cons x l ih =>
    obtain ⟨rfl, y, hy, hl⟩ := h
    rw [List.length_cons, walk_follow hy, ih hl, Option.map_some]

/-- What a traversal returns is a segment. -/
theorem segment_of_walk {n : Nat} (h : walk f n start = some l) :
    ∃ stop, Segment f start l stop ∧ f stop = none := by
  induction n generalizing start l with
  | zero => exact absurd h (by simp [walk])
  | succ n ih =>
    cases hf : f start with
    | none =>
      rw [walk_stop hf, Option.some.injEq] at h
      subst h
      exact ⟨start, Segment.nil start, hf⟩
    | some y =>
      rw [walk_follow hf] at h
      obtain ⟨l', hl', rfl⟩ := Option.map_eq_some_iff.mp h
      obtain ⟨stop, hseg, hstop⟩ := ih hl'
      exact ⟨stop, Segment.cons hf hseg, hstop⟩

/-- From one cell there is one way to a stop. -/
theorem Segment.unique {stop' : α} (h : Segment f start l stop) (hstop : f stop = none)
    (h' : Segment f start l' stop') (hstop' : f stop' = none) : l = l' := by
  have hl := walk_mono (h.walk_eq hstop) (Nat.le_max_left _ (l'.length + 1))
  have hl' := walk_mono (h'.walk_eq hstop') (Nat.le_max_right (l.length + 1) _)
  rw [hl, Option.some.injEq] at hl'
  exact hl'

/-- The rest of a segment, from one of its cells on. -/
theorem Segment.drop {a b : List α} (h : Segment f start (a ++ x :: b) stop) :
    Segment f x (x :: b) stop := by
  induction a generalizing start with
  | nil =>
    obtain ⟨rfl, y, hy, hl⟩ := h
    exact ⟨rfl, y, hy, hl⟩
  | cons z a ih =>
    obtain ⟨rfl, y, -, hl⟩ := h
    exact ih hl

/-- A segment that ends visits no cell twice. -/
theorem Segment.nodup (h : Segment f start l stop) (hstop : f stop = none) : l.Nodup := by
  induction l generalizing start with
  | nil => exact List.nodup_nil
  | cons x l ih =>
    obtain ⟨rfl, y, hy, hl⟩ := h
    refine List.nodup_cons.mpr ⟨fun hmem => ?_, ih hl⟩
    -- met again, the cell has two ways to the stop, one longer than the other
    obtain ⟨a, b, rfl⟩ := List.append_of_mem hmem
    have heq := Segment.unique (Segment.cons hy hl) hstop hl.drop hstop
    have hlen := congrArg List.length (List.cons.inj heq).2
    simp only [List.length_append, List.length_cons] at hlen
    omega

/-- Only cells with a pointer are visited. -/
theorem Segment.follows (h : Segment f start l stop) (hx : x ∈ l) : f x ≠ none := by
  induction l generalizing start with
  | nil => exact absurd hx List.not_mem_nil
  | cons z l ih =>
    obtain ⟨rfl, y, hy, hl⟩ := h
    rcases List.mem_cons.mp hx with rfl | hx
    · rw [hy]
      exact Option.some_ne_none y
    · exact ih hl hx

/-- Behind a cell of a segment comes another one, or its stop. -/
theorem Segment.mem_or_stop (h : Segment f start l stop) (hx : x ∈ l) (hy : f x = some y) :
    y ∈ l ∨ y = stop := by
  induction l generalizing start with
  | nil => exact absurd hx List.not_mem_nil
  | cons z l ih =>
    obtain ⟨rfl, w, hw, hl⟩ := h
    rcases List.mem_cons.mp hx with rfl | hx
    · obtain rfl := Option.some.inj (hw.symm.trans hy)
      cases l with
      | nil => exact .inr hl
      | cons v l => exact .inl (List.mem_cons_of_mem _ (hl.1 ▸ List.mem_cons_self))
    · exact (ih hl hx).imp_left (List.mem_cons_of_mem _)

variable [DecidableEq α]

/-- Taking a cell out behind its predecessor. -/
theorem Segment.remove {a b : List α} {p : α} (h : Segment f start (a ++ p :: x :: b) stop)
    (hnodup : (a ++ p :: x :: b).Nodup) (hy : f x = some y) :
    Segment (Function.update f p (some y)) start (a ++ p :: b) stop := by
  induction a generalizing start with
  | nil =>
    obtain ⟨rfl, _, -, rfl, y', hy', hl⟩ := h
    rw [hy, Option.some.injEq] at hy'
    subst hy'
    refine Segment.cons (Function.update_self _ _ f) (hl.congr fun z hz => ?_)
    have hne : z ≠ start := by
      rintro rfl
      exact (List.nodup_cons.mp hnodup).1 (List.mem_cons_of_mem _ hz)
    exact Function.update_of_ne hne _ f
  | cons z a ih =>
    obtain ⟨rfl, w, hw, hl⟩ := h
    rw [List.cons_append, List.nodup_cons] at hnodup
    have hne : start ≠ p := by
      rintro rfl
      exact hnodup.1 (by simp)
    exact Segment.cons (by rw [Function.update_of_ne hne, hw]) (ih hl hnodup.2)

/-- The traversal that looks for a predecessor finds it. -/
theorem Segment.seek_eq {a b : List α} {p : α} (h : Segment f start (a ++ p :: x :: b) stop)
    (hnodup : (a ++ p :: x :: b).Nodup) {n : Nat} (hn : a.length < n) :
    seek f x n start = some (some p) := by
  induction a generalizing start n with
  | nil =>
    obtain ⟨n, rfl⟩ : ∃ k, n = k + 1 := ⟨n - 1, by omega⟩
    obtain ⟨rfl, y, hy, rfl, -⟩ := h
    simp only [seek, hy, if_true]
  | cons z a ih =>
    obtain ⟨n, rfl⟩ : ∃ k, n = k + 1 := ⟨n - 1, by omega⟩
    obtain ⟨rfl, y, hy, hl⟩ := h
    rw [List.cons_append, List.nodup_cons] at hnodup
    rw [List.length_cons] at hn
    have hne : y ≠ x := by
      rintro rfl
      -- the next cell would be the one looked for, and that one stands behind `p`
      have hhead : (a ++ p :: y :: b).head? = some y := by
        cases a with
        | nil => exact congrArg some hl.1.symm
        | cons w a => exact congrArg some hl.1.symm
      have hnodup' := hnodup.2
      cases a with
      | nil =>
        obtain rfl : p = y := by simpa using hhead
        simp at hnodup'
      | cons w a =>
        obtain rfl : w = y := by simpa using hhead
        simp at hnodup'
    simp only [seek, hy, if_neg hne]
    exact ih hl hnodup.2 (by omega)

end Segments

/-! ## Cycles -/

/-- There is a pointer from the one to the other. -/
def Follows (f : α → Option α) (x y : α) : Prop := f x = some y

/-- No cell is reached from itself. -/
def Acyclic (f : α → Option α) : Prop := ∀ x, ¬ TransGen (Follows f) x x

section Cycles
variable {f g : α → Option α} {x y : α}

/-- New pointers that lead where old ones led, or to a stop, make no cycle. -/
theorem Acyclic.of_paths (h : Acyclic f)
    (hg : ∀ x y, g x = some y → TransGen (Follows f) x y ∨ g y = none) : Acyclic g := by
  have hpath : ∀ {x y}, TransGen (Follows g) x y → TransGen (Follows f) x y ∨ g y = none := by
    intro x y hxy
    induction hxy with
    | single hxy => exact hg _ _ hxy
    | tail hab hbc ih =>
      rename_i b c
      rcases ih with ih | hstop
      · rcases hg _ _ hbc with hbc | hstop
        · exact Or.inl (ih.trans hbc)
        · exact Or.inr hstop
      · rw [Follows, hstop] at hbc
        exact absurd hbc (by simp)
  intro x hxx
  rcases hpath hxx with hcycle | hstop
  · exact h x hcycle
  · obtain ⟨y, hxy, -⟩ := TransGen.head'_iff.mp hxx
    rw [Follows, hstop] at hxy
    exact absurd hxy (by simp)

variable [DecidableEq α]

/-- A pointer changed at one cell is not met before that cell is. -/
theorem reaches_update {o : α} (h : ReflTransGen (Follows f) o x) (v : Option α) :
    ReflTransGen (Follows (Function.update f x v)) o x := by
  induction h using ReflTransGen.head_induction_on with
  | refl => exact ReflTransGen.refl
  | head hab hbx ih =>
    rename_i a b
    by_cases hax : a = x
    · rw [hax]
    · refine ReflTransGen.head ?_ ih
      rw [Follows, Function.update_of_ne hax]
      exact hab

/-- **One pointer more** makes a cycle exactly when its target reached its cell. -/
theorem acyclic_update_iff (h : Acyclic f) (x o : α) :
    Acyclic (Function.update f x (some o)) ↔ ¬ ReflTransGen (Follows f) o x := by
  have hnew : Follows (Function.update f x (some o)) x o := Function.update_self x _ f
  constructor
  · intro hacyclic hreach
    exact hacyclic x (TransGen.head' hnew (reaches_update hreach _))
  · intro hreach
    -- a path either keeps off the new pointer or runs over it
    have hpath : ∀ {a b}, TransGen (Follows (Function.update f x (some o))) a b →
        TransGen (Follows f) a b ∨
          ReflTransGen (Follows f) a x ∧ ReflTransGen (Follows f) o b := by
      have hstep : ∀ {a b}, Follows (Function.update f x (some o)) a b →
          Follows f a b ∨ a = x ∧ b = o := by
        intro a b hab
        by_cases hax : a = x
        · subst hax
          rw [Follows, Function.update_self, Option.some.injEq] at hab
          exact Or.inr ⟨rfl, hab.symm⟩
        · rw [Follows, Function.update_of_ne hax] at hab
          exact Or.inl hab
      intro a b hab
      induction hab with
      | single hab =>
        rcases hstep hab with hab | ⟨rfl, rfl⟩
        · exact Or.inl (TransGen.single hab)
        · exact Or.inr ⟨ReflTransGen.refl, ReflTransGen.refl⟩
      | tail _ hbc ih =>
        rcases hstep hbc with hbc | ⟨rfl, rfl⟩
        · rcases ih with ih | ⟨hax, hob⟩
          · exact Or.inl (ih.tail hbc)
          · exact Or.inr ⟨hax, hob.tail hbc⟩
        · rcases ih with ih | ⟨hax, -⟩
          · exact Or.inr ⟨ih.to_reflTransGen, ReflTransGen.refl⟩
          · exact Or.inr ⟨hax, ReflTransGen.refl⟩
    intro a haa
    rcases hpath haa with hcycle | ⟨hax, hoa⟩
    · exact h a hcycle
    · exact hreach (hoa.trans hax)

/-- Without a cycle a traversal visits a cell at most once, so it ends after as many rounds as
there are cells to visit. -/
theorem Acyclic.walk_ends (h : Acyclic f) : ∀ (cells : Finset α) (x : α),
    (∀ y, ReflTransGen (Follows f) x y → f y ≠ none → y ∈ cells) →
    ∃ l, walk f (cells.card + 1) x = some l := by
  intro cells
  induction hn : cells.card generalizing cells with
  | zero =>
    intro x hcells
    have hx : f x = none := by
      by_contra hne
      have hmem := hcells x ReflTransGen.refl hne
      rw [Finset.card_eq_zero.mp hn] at hmem
      exact absurd hmem (Finset.notMem_empty x)
    exact ⟨[], walk_stop hx 0⟩
  | succ n ih =>
    intro x hcells
    cases hx : f x with
    | none => exact ⟨[], walk_stop hx _⟩
    | some y =>
      have hmem : x ∈ cells := hcells x ReflTransGen.refl (by rw [hx]; exact Option.some_ne_none y)
      have hcard : (cells.erase x).card = n := by
        rw [Finset.card_erase_of_mem hmem, hn, Nat.add_sub_cancel]
      obtain ⟨l, hl⟩ := ih (cells.erase x) hcard y fun z hz hne => by
        refine Finset.mem_erase.mpr ⟨?_, hcells z (ReflTransGen.head hx hz) hne⟩
        rintro rfl
        exact h z (TransGen.head' hx hz)
      exact ⟨x :: l, by rw [walk_follow hx, hl, Option.map_some]⟩

omit [DecidableEq α] in
/-- A traversal that comes back to a cell never ends. -/
theorem walk_of_cycle {x y : α} (hxy : TransGen (Follows f) x y) {n : Nat} {l : List α}
    (h : walk f n x = some l) : ∃ l', walk f n y = some l' ∧ l'.length < l.length := by
  induction hxy with
  | single hxy =>
    cases n with
    | zero => exact absurd h (by simp [walk])
    | succ n =>
      rw [walk_follow hxy] at h
      obtain ⟨l', hl', rfl⟩ := Option.map_eq_some_iff.mp h
      exact ⟨l', walk_mono hl' (Nat.le_succ n), by simp⟩
  | tail _ hbc ih =>
    obtain ⟨l', hl', hlt⟩ := ih
    cases n with
    | zero => exact absurd h (by simp [walk])
    | succ n =>
      rw [walk_follow hbc] at hl'
      obtain ⟨l'', hl'', rfl⟩ := Option.map_eq_some_iff.mp hl'
      rw [List.length_cons] at hlt
      exact ⟨l'', walk_mono hl'' (Nat.le_succ n), by omega⟩

/-- **Traversals end from everywhere exactly when there is no cycle.** -/
theorem acyclic_iff_walk_ends (cells : Finset α) (hcells : ∀ x, f x ≠ none → x ∈ cells) :
    Acyclic f ↔ ∀ x, ∃ n l, walk f n x = some l := by
  constructor
  · intro h x
    obtain ⟨l, hl⟩ := h.walk_ends cells x fun y _ hy => hcells y hy
    exact ⟨_, l, hl⟩
  · intro h x hcycle
    obtain ⟨n, l, hl⟩ := h x
    obtain ⟨l', hl', hlt⟩ := walk_of_cycle hcycle hl
    rw [hl, Option.some.injEq] at hl'
    exact absurd hlt (by rw [hl']; exact Nat.lt_irrefl _)

/-- A segment that ends is no longer than there are cells. -/
theorem Segment.length_le {start stop : α} {l : List α} (h : Segment f start l stop)
    (hstop : f stop = none) (cells : Finset α) (hcells : ∀ x, f x ≠ none → x ∈ cells) :
    l.length ≤ cells.card := by
  have hsub : l.toFinset ⊆ cells := fun y hy => hcells y (h.follows (List.mem_toFinset.mp hy))
  rw [← List.toFinset_card_of_nodup (h.nodup hstop)]
  exact Finset.card_le_card hsub

/-- A traversal that ends at all ends within the number of cells. -/
theorem walk_rounds (cells : Finset α) (hcells : ∀ x, f x ≠ none → x ∈ cells) {n : Nat}
    {l : List α} (h : walk f n x = some l) : walk f (cells.card + 1) x = some l := by
  obtain ⟨stop, hseg, hstop⟩ := segment_of_walk h
  exact walk_mono (hseg.walk_eq hstop) (Nat.succ_le_succ (hseg.length_le hstop cells hcells))

omit [DecidableEq α] in
/-- A traversal visits what is reached and points on. -/
theorem mem_walk_iff {n : Nat} {l : List α} (h : walk f n x = some l) :
    y ∈ l ↔ ReflTransGen (Follows f) x y ∧ f y ≠ none := by
  induction n generalizing x l with
  | zero => exact absurd h (by simp [walk])
  | succ n ih =>
    cases hf : f x with
    | none =>
      rw [walk_stop hf, Option.some.injEq] at h
      subst h
      refine ⟨fun hy => absurd hy List.not_mem_nil, fun ⟨hxy, hy⟩ => ?_⟩
      rcases hxy.cases_head with rfl | ⟨z, hxz, -⟩
      · exact absurd hf hy
      · rw [Follows, hf] at hxz
        exact absurd hxz (by simp)
    | some z =>
      rw [walk_follow hf] at h
      obtain ⟨l', hl', rfl⟩ := Option.map_eq_some_iff.mp h
      rw [List.mem_cons, ih hl']
      constructor
      · rintro (rfl | ⟨hzy, hy⟩)
        · exact ⟨ReflTransGen.refl, by rw [hf]; exact Option.some_ne_none z⟩
        · exact ⟨ReflTransGen.head hf hzy, hy⟩
      · rintro ⟨hxy, hy⟩
        rcases hxy.cases_head with rfl | ⟨w, hxw, hwy⟩
        · exact Or.inl rfl
        · rw [Follows, hf, Option.some.injEq] at hxw
          exact Or.inr ⟨hxw ▸ hwy, hy⟩

/-- The search for a predecessor ends where the traversal does. -/
theorem seek_of_walk (target : α) {n : Nat} {l : List α} (h : walk f n x = some l) :
    ∃ r, seek f target n x = some r := by
  induction n generalizing x l with
  | zero => exact absurd h (by simp [walk])
  | succ n ih =>
    cases hf : f x with
    | none => exact ⟨none, by simp only [seek, hf]⟩
    | some y =>
      rw [walk_follow hf] at h
      obtain ⟨l', hl', -⟩ := Option.map_eq_some_iff.mp h
      by_cases hy : y = target
      · exact ⟨some x, by simp only [seek, hf, if_pos hy]⟩
      · obtain ⟨r, hr⟩ := ih hl'
        exact ⟨r, by simp only [seek, hf, if_neg hy, hr]⟩

/-- What the search finds points at the target. -/
theorem follows_of_seek {target p : α} {n : Nat} (h : seek f target n x = some (some p)) :
    f p = some target := by
  induction n generalizing x with
  | zero => exact absurd h (by simp [seek])
  | succ n ih =>
    simp only [seek] at h
    split at h
    · exact absurd h (by simp)
    · rename_i y hy
      split at h
      · rename_i heq
        obtain rfl := Option.some.inj (Option.some.inj h)
        rw [hy, heq]
      · exact ih h

end Cycles
end Lib
