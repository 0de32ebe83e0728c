import Mathlib.Data.List.TakeWhile

/-!
# Scanning

A scanner cuts its input from the left: one round looks at the first element and what follows,
hands something out, and goes on with a rest that no longer has that element. Enough rounds and no
more than there are elements finish the input (`scanAll_cons`).

A separator is an element that is skipped where it is met, and that no round started before it
reads past. Scanning distributes over it (`scanAll_separator`).
-/

set_option autoImplicit false

namespace Lib

/-! ## Runs up to an element that stops them -/

section Runs
variable {α : Type} {p : α → Bool} {s : α}

theorem takeWhile_append_stop (hs : p s = false) (xs ys : List α) :
    (xs ++ s :: ys).takeWhile p = xs.takeWhile p := by
  induction xs with
  | nil => rw [List.nil_append, List.takeWhile_cons_of_neg (by simp [hs]), List.takeWhile_nil]
  | cons x xs ih => rw [List.cons_append, List.takeWhile_cons, List.takeWhile_cons, ih]

theorem dropWhile_append_stop (hs : p s = false) (xs ys : List α) :
    (xs ++ s :: ys).dropWhile p = xs.dropWhile p ++ s :: ys := by
  induction xs with
  | nil => rw [List.nil_append, List.dropWhile_cons_of_neg (by simp [hs]), List.dropWhile_nil]; rfl
  | cons x xs ih =>
    rw [List.cons_append, List.dropWhile_cons, List.dropWhile_cons, ih]
    split <;> rfl

/-- A run ends at the end of the list or at an element that stops it. -/
theorem stops_of_head?_dropWhile {xs : List α} (h : (xs.dropWhile p).head? = some s) :
    p s = false := by
  have hnot := List.head?_dropWhile_not p xs
  rw [h] at hnot
  exact hnot

end Runs

/-! ## The scanner -/

section Scanner
variable {α β : Type} (cut : α → List α → List β × List α)

/-- So many rounds, or fewer if the input ends. -/
def scan : Nat → List α → List β
  | 0, _ => []
  | _, [] => []
  | rounds + 1, c :: rest => (cut c rest).1 ++ scan rounds (cut c rest).2

def scanAll (xs : List α) : List β := scan cut xs.length xs

/-- Every round takes the first element at least. -/
def Shortens : Prop := ∀ c rest, (cut c rest).2.length ≤ rest.length

theorem scanAll_nil : scanAll cut [] = [] := rfl

variable {cut}

theorem scan_enough (h : Shortens cut) (n : Nat) :
    ∀ m xs, xs.length ≤ n → xs.length ≤ m → scan cut n xs = scan cut m xs := by
  induction n with
  | zero =>
    intro m xs hn _
    obtain rfl := List.length_eq_zero_iff.mp (Nat.le_zero.mp hn)
    cases m <;> rfl
  | succ n ih =>
    intro m xs hn hm
    cases xs with
    | nil => cases m <;> rfl
    | cons c rest =>
      cases m with
      | zero => exact absurd hm (Nat.not_succ_le_zero _)
      | succ m =>
        have hrest := h c rest
        rw [List.length_cons] at hn hm
        rw [scan, scan, ih m _ (by omega) (by omega)]

theorem scanAll_of_le (h : Shortens cut) {n : Nat} {xs : List α} (hn : xs.length ≤ n) :
    scan cut n xs = scanAll cut xs := scan_enough h n _ xs hn (Nat.le_refl _)

theorem scanAll_cons (h : Shortens cut) (c : α) (rest : List α) :
    scanAll cut (c :: rest) = (cut c rest).1 ++ scanAll cut (cut c rest).2 := by
  rw [← scanAll_of_le h (h c rest)]
  rfl

/-- Induction over the rounds. -/
theorem rounds_induction (h : Shortens cut) {P : List α → Prop} (nil : P [])
    (cons : ∀ c rest, P (cut c rest).2 → P (c :: rest)) (xs : List α) : P xs := by
  induction hlen : xs.length using Nat.strongRecOn generalizing xs with
  | ind n ih =>
    cases xs with
    | nil => exact nil
    | cons c rest =>
      refine cons c rest (ih _ ?_ _ rfl)
      rw [← hlen, List.length_cons]
      exact Nat.lt_succ_of_le (h c rest)

/-- **Scanning distributes over a separator.** -/
theorem scanAll_separator (h : Shortens cut) {s : α} {ys : List α}
    (hskip : ∀ rest, cut s rest = ([], rest))
    (hstop : ∀ c rest, cut c (rest ++ s :: ys) = ((cut c rest).1, (cut c rest).2 ++ s :: ys))
    (xs : List α) : scanAll cut (xs ++ s :: ys) = scanAll cut xs ++ scanAll cut ys := by
  induction xs using rounds_induction h with
  | nil => rw [List.nil_append, scanAll_cons h, hskip, scanAll_nil]
  | cons c rest ih =>
    rw [List.cons_append, scanAll_cons h, scanAll_cons h c rest, hstop, ih, List.append_assoc]

end Scanner
end Lib
