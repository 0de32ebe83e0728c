import LightGraph.Index.Property

/-!
# What predicates mean

A comparison scans the keys between its constant and the largest or smallest finite double. Two
things follow. Where the constant is beyond that end, the scan's bounds are the wrong way round, and
if there is an index the evaluation panics (`evaluate_returns_iff`). And where it is not, the scan
is not quite what the comparison says: it takes the key that equals the constant, also where the
comparison is strict, and it leaves out the keys beyond the end, which are the infinities and NaN.
Each of the two is a way for a node to be in the answer by mistake or to be missed by mistake, and
an enclosing predicate may hide either; the answer is right just where none is left
(`evaluate_means_iff`).
-/

set_option autoImplicit false

namespace LightGraph

open Lib

/-! ## Constants -/

namespace OrderedFloat

def maxFinite : OrderedFloat := ofBits f64Max
def minFinite : OrderedFloat := ofBits f64Min

theorem place_maxFinite : maxFinite.place = infPlace - 1 := by decide
theorem place_minFinite : minFinite.place = 1 - infPlace := by decide

theorem le_def {a b : OrderedFloat} : a ≤ b ↔ a.place ≤ b.place := Iff.rfl
theorem lt_def {a b : OrderedFloat} : a < b ↔ a.place < b.place := Iff.rfl

/-- Not an infinity and not NaN. -/
def IsFinite (f : OrderedFloat) : Prop := -infPlace < f.place ∧ f.place < infPlace

theorem isFinite_iff {f : OrderedFloat} : f.IsFinite ↔ minFinite ≤ f ∧ f ≤ maxFinite := by
  rw [IsFinite, le_def, le_def, place_maxFinite, place_minFinite]
  constructor <;> (rintro ⟨hlo, hhi⟩; constructor <;> omega)

theorem finite_ofBits {bits : UInt64} (h : ((bits.toNat % 2 ^ 63 : Nat) : Int) < infPlace) :
    (ofBits bits).IsFinite := by
  have hnonneg : (0 : Int) ≤ ((bits.toNat % 2 ^ 63 : Nat) : Int) := Int.natCast_nonneg _
  have hle : ((bits.toNat % 2 ^ 63 : Nat) : Int) ≤ infPlace := Int.le_of_lt h
  unfold ofBits
  rw [dif_pos (by simpa using hle)]
  split
  · constructor <;> (simp only; omega)
  · constructor <;> (simp only; omega)

theorem finite_zero : (ofBits 0).IsFinite := finite_ofBits (by decide)

end OrderedFloat

/-- Up to 53 bits are kept as they are. -/
theorem shifted_le {n : Nat} (h : n.log2 ≤ 52) : n * 2 ^ (52 - n.log2) ≤ 2 ^ 53 := by
  have hlt : n < 2 ^ (n.log2 + 1) := Nat.lt_log2_self
  calc n * 2 ^ (52 - n.log2)
      ≤ 2 ^ (n.log2 + 1) * 2 ^ (52 - n.log2) := Nat.mul_le_mul_right _ (Nat.le_of_lt hlt)
    _ = 2 ^ 53 := by rw [← Nat.pow_add]; congr 1; omega

/-- Of more, the upper 53 are kept. -/
theorem down_lt {n : Nat} (h : ¬ n.log2 ≤ 52) : n / 2 ^ (n.log2 - 52) < 2 ^ 53 := by
  have hlt : n < 2 ^ (n.log2 + 1) := Nat.lt_log2_self
  have hpow : 2 ^ (n.log2 - 52) * 2 ^ 53 = 2 ^ (n.log2 + 1) := by
    rw [← Nat.pow_add]
    congr 1
    omega
  exact Nat.div_lt_of_lt_mul (by rw [hpow]; exact hlt)

theorem roundToDouble_lt {n : Nat} (h : n ≤ 2 ^ 63) : roundToDouble n < 0x7FF0000000000000 := by
  unfold roundToDouble
  split
  · decide
  · rename_i hn
    have hexp : n.log2 < 64 := (Nat.log2_lt hn).mpr (by omega)
    dsimp only
    split
    · rename_i hsmall
      have hshifted := shifted_le hsmall
      omega
    · rename_i hlarge
      have hdown := down_lt hlarge
      split <;> omega

/-- An integer is far from the ends. -/
theorem finite_f64OfInt (v : Int64) : (OrderedFloat.ofBits (f64OfInt v)).IsFinite := by
  have habs : v.toInt.natAbs ≤ 2 ^ 63 := by
    have hlo := v.le_toInt
    have hhi := v.toInt_lt
    omega
  have hlt := roundToDouble_lt habs
  refine OrderedFloat.finite_ofBits ?_
  unfold f64OfInt infPlace
  rw [UInt64.toNat_ofNat']
  split <;> omega

namespace Value

/-- What a comparison compares with. -/
def number (v : Value) : OrderedFloat := OrderedFloat.ofBits v.asF64

/-- Infinity or NaN. -/
def AboveAll (v : Value) : Prop :=
  ∃ bits, v = .float bits ∧ infPlace ≤ (OrderedFloat.ofBits bits).place

/-- Minus infinity. -/
def BelowAll (v : Value) : Prop :=
  ∃ bits, v = .float bits ∧ (OrderedFloat.ofBits bits).place = -infPlace

/-- An integer or a finite float. -/
def IsFiniteNumber : Value → Prop
  | .int _ => True
  | .float bits => (OrderedFloat.ofBits bits).IsFinite
  | _ => False

/-- What is not a float is compared as a finite one. -/
theorem finite_or_float (v : Value) : v.number.IsFinite ∨ ∃ bits, v = .float bits := by
  cases v with
  | float bits => exact Or.inr ⟨bits, rfl⟩
  | int n => exact Or.inl (finite_f64OfInt n)
  | null => exact Or.inl OrderedFloat.finite_zero
  | bool b => exact Or.inl OrderedFloat.finite_zero
  | string s => exact Or.inl OrderedFloat.finite_zero
  | list vs => exact Or.inl OrderedFloat.finite_zero
  | vector bits => exact Or.inl OrderedFloat.finite_zero

theorem IsFiniteNumber.number {v : Value} (h : v.IsFiniteNumber) : v.number.IsFinite := by
  cases v with
  | int n => exact finite_f64OfInt n
  | float bits => exact h
  | null => exact h.elim
  | bool b => exact h.elim
  | string s => exact h.elim
  | list vs => exact h.elim
  | vector bits => exact h.elim

theorem maxFinite_lt_iff (v : Value) : OrderedFloat.maxFinite < v.number ↔ v.AboveAll := by
  rw [OrderedFloat.lt_def, OrderedFloat.place_maxFinite]
  constructor
  · intro hlt
    rcases v.finite_or_float with hfinite | ⟨bits, rfl⟩
    · exact absurd hfinite.2 (by omega)
    · exact ⟨bits, rfl, by change _ < (OrderedFloat.ofBits bits).place at hlt; omega⟩
  · rintro ⟨bits, rfl, hplace⟩
    change _ < (OrderedFloat.ofBits bits).place
    omega

theorem lt_minFinite_iff (v : Value) : v.number < OrderedFloat.minFinite ↔ v.BelowAll := by
  rw [OrderedFloat.lt_def, OrderedFloat.place_minFinite]
  constructor
  · intro hlt
    rcases v.finite_or_float with hfinite | ⟨bits, rfl⟩
    · exact absurd hfinite.1 (by omega)
    · have hle := (OrderedFloat.ofBits bits).le_place
      change (OrderedFloat.ofBits bits).place < _ at hlt
      exact ⟨bits, rfl, by omega⟩
  · rintro ⟨bits, rfl, hplace⟩
    change (OrderedFloat.ofBits bits).place < _
    omega

end Value

/-! ## Where evaluation panics -/

namespace PropertyIndex

/-- There is something to scan. -/
def HasRange (ix : PropertyIndex) (label prop : String) : Prop :=
  ∃ idx, ix.rangeIndexes.get (label, prop) = some idx

theorem rangeScan_of_lt {ix : PropertyIndex} {label prop : String} {lo hi : UInt64}
    {idx : BTreeMap OrderedFloat RoaringBitmap}
    (hidx : ix.rangeIndexes.get (label, prop) = some idx)
    (h : OrderedFloat.ofBits hi < OrderedFloat.ofBits lo) :
    ix.rangeScan label prop lo hi = none := by
  simp only [rangeScan, hidx, BTreeMap.range, if_pos h]

theorem rangeScan_of_le {ix : PropertyIndex} {label prop : String} {lo hi : UInt64}
    {idx : BTreeMap OrderedFloat RoaringBitmap}
    (hidx : ix.rangeIndexes.get (label, prop) = some idx)
    (h : ¬ OrderedFloat.ofBits hi < OrderedFloat.ofBits lo) :
    ix.rangeScan label prop lo hi = some ((idx.entries.filter fun e =>
      OrderedFloat.ofBits lo ≤ e.1 && e.1 ≤ OrderedFloat.ofBits hi).foldl
        (fun acc e => acc ∪ e.2) ∅) := by
  simp only [rangeScan, hidx, BTreeMap.range, if_neg h]

theorem rangeScan_eq_none_iff (ix : PropertyIndex) (label prop : String) (lo hi : UInt64) :
    ix.rangeScan label prop lo hi = none ↔
      ix.HasRange label prop ∧ OrderedFloat.ofBits hi < OrderedFloat.ofBits lo := by
  unfold HasRange
  cases hidx : ix.rangeIndexes.get (label, prop) with
  | none => simp [rangeScan, hidx]
  | some idx =>
    by_cases hlt : OrderedFloat.ofBits hi < OrderedFloat.ofBits lo
    · simp [rangeScan_of_lt hidx hlt, hlt]
    · simp [rangeScan_of_le hidx hlt, hlt]

end PropertyIndex

namespace Predicate

/-- No comparison that has an index to scan has a constant beyond the end of its scan. What stands
under a `Not` is not evaluated. -/
def InScanBounds (ix : PropertyIndex) : Predicate → Prop
  | .eq _ _ _ => True
  | .gt label prop val => ¬ (ix.HasRange label prop ∧ val.AboveAll)
  | .gte label prop val => ¬ (ix.HasRange label prop ∧ val.AboveAll)
  | .lt label prop val => ¬ (ix.HasRange label prop ∧ val.BelowAll)
  | .lte label prop val => ¬ (ix.HasRange label prop ∧ val.BelowAll)
  | .isIn _ _ _ => True
  | .and p q => p.InScanBounds ix ∧ q.InScanBounds ix
  | .or p q => p.InScanBounds ix ∧ q.InScanBounds ix
  | .not _ => True

theorem scanUp_returns_iff (ix : PropertyIndex) (label prop : String) (val : Value) :
    (∃ bm, ix.rangeScan label prop val.asF64 f64Max = some bm) ↔
      ¬ (ix.HasRange label prop ∧ val.AboveAll) := by
  rw [← Option.ne_none_iff_exists', Ne, PropertyIndex.rangeScan_eq_none_iff]
  exact not_congr (and_congr_right' val.maxFinite_lt_iff)

theorem scanDown_returns_iff (ix : PropertyIndex) (label prop : String) (val : Value) :
    (∃ bm, ix.rangeScan label prop f64Min val.asF64 = some bm) ↔
      ¬ (ix.HasRange label prop ∧ val.BelowAll) := by
  rw [← Option.ne_none_iff_exists', Ne, PropertyIndex.rangeScan_eq_none_iff]
  exact not_congr (and_congr_right' val.lt_minFinite_iff)

/-- **Predicate evaluation returns** a bitmap exactly where no comparison over an index has its
constant beyond the end of its scan. -/
theorem evaluate_returns_iff (ix : PropertyIndex) (p : Predicate) :
    (∃ bm, ix.evaluate p = some bm) ↔ p.InScanBounds ix := by
  induction p with
  | eq label prop val => exact iff_of_true ⟨_, rfl⟩ trivial
  | gt label prop val => exact scanUp_returns_iff ix label prop val
  | gte label prop val => exact scanUp_returns_iff ix label prop val
  | lt label prop val => exact scanDown_returns_iff ix label prop val
  | lte label prop val => exact scanDown_returns_iff ix label prop val
  | isIn label prop vals => exact iff_of_true ⟨_, rfl⟩ trivial
  | and p q ihp ihq =>
    rw [InScanBounds, ← ihp, ← ihq, PropertyIndex.evaluate]
    cases ix.evaluate p <;> cases ix.evaluate q <;> simp
  | or p q ihp ihq =>
    rw [InScanBounds, ← ihp, ← ihq, PropertyIndex.evaluate]
    cases ix.evaluate p <;> cases ix.evaluate q <;> simp
  | not p _ => exact iff_of_true ⟨_, rfl⟩ trivial

end Predicate

/-! One node at a price of 1, another at a price of 2. -/

def priceOne : UInt64 := 0x3FF0000000000000
def priceTwo : UInt64 := 0x4000000000000000
def infinity : UInt64 := 0x7FF0000000000000

def prices : BTreeMap OrderedFloat RoaringBitmap :=
  { entries := [(.ofBits priceOne, {1}), (.ofBits priceTwo, {2})]
    sorted := by decide }

def priced : PropertyIndex :=
  { eqIndexes := ∅
    rangeIndexes := FiniteMap.put ∅ ("item", "price") prices }

theorem get_priced : priced.rangeIndexes.get ("item", "price") = some prices :=
  FiniteMap.get_put_self _ _ _

/-- Asking for more than infinity panics. -/
theorem more_than_infinity_panics :
    ¬ ∀ (ix : PropertyIndex) (p : Predicate), ∃ bm, ix.evaluate p = some bm := by
  intro h
  obtain ⟨bm, hbm⟩ := h priced (.gt "item" "price" (.float infinity))
  have hnone : priced.evaluate (.gt "item" "price" (.float infinity)) = none :=
    PropertyIndex.rangeScan_of_lt get_priced (by decide)
  exact absurd (hnone.symm.trans hbm) (by simp)

/-! ## What predicates say -/

namespace PropertyIndex

/-- The node is filed under a number that `K` holds of. -/
def FiledAt (ix : PropertyIndex) (label prop : String) (K : OrderedFloat → Prop) (x : UInt32) :
    Prop :=
  ∃ idx, ix.rangeIndexes.get (label, prop) = some idx ∧
    ∃ e ∈ idx.entries, K e.1 ∧ x ∈ e.2

/-- The node is filed under a number that `K` holds of and under none that `L` holds of. -/
def FiledBut (ix : PropertyIndex) (label prop : String) (K L : OrderedFloat → Prop)
    (x : UInt32) : Prop :=
  ix.FiledAt label prop K x ∧ ¬ ix.FiledAt label prop L x

/-- The node is filed under the value itself. -/
def FiledAs (ix : PropertyIndex) (label prop : String) (val : Value) (x : UInt32) : Prop :=
  ∃ idx bm, ix.eqIndexes.get (label, prop) = some idx ∧
    idx.get (ValueWrapper.ofValue val) = some bm ∧ x ∈ bm

theorem FiledAt.mono {ix : PropertyIndex} {label prop : String} {K L : OrderedFloat → Prop}
    {x : UInt32} (hKL : ∀ k, K k → L k) (h : ix.FiledAt label prop K x) :
    ix.FiledAt label prop L x := by
  obtain ⟨idx, hidx, e, he, hK, hx⟩ := h
  exact ⟨idx, hidx, e, he, hKL e.1 hK, hx⟩

theorem filedAt_or {ix : PropertyIndex} {label prop : String} {K L : OrderedFloat → Prop}
    {x : UInt32} (h : ix.FiledAt label prop (fun k => K k ∨ L k) x) :
    ix.FiledAt label prop K x ∨ ix.FiledAt label prop L x := by
  obtain ⟨idx, hidx, e, he, hor, hx⟩ := h
  rcases hor with hK | hL
  · exact Or.inl ⟨idx, hidx, e, he, hK, hx⟩
  · exact Or.inr ⟨idx, hidx, e, he, hL, hx⟩

theorem mem_foldl_union {β : Type} (f : β → RoaringBitmap) (x : UInt32) (l : List β) :
    ∀ acc, x ∈ l.foldl (fun acc b => acc ∪ f b) acc ↔ x ∈ acc ∨ ∃ b ∈ l, x ∈ f b := by
  induction l with
  | nil => simp
  | cons b l ih =>
    intro acc
    rw [List.foldl_cons, ih, Finset.mem_union]
    simp only [List.mem_cons, exists_eq_or_imp, or_assoc]

theorem mem_evaluateEq (ix : PropertyIndex) (label prop : String) (val : Value) (x : UInt32) :
    x ∈ ix.evaluateEq label prop val ↔ ix.FiledAs label prop val x := by
  unfold evaluateEq FiledAs
  cases ix.eqIndexes.get (label, prop) with
  | none => simp
  | some idx =>
    cases hbm : idx.get (ValueWrapper.ofValue val) with
    | none => simp [hbm]
    | some bm => simp [hbm]

theorem mem_rangeScan (ix : PropertyIndex) (label prop : String) {lo hi : UInt64}
    (hle : OrderedFloat.ofBits lo ≤ OrderedFloat.ofBits hi) :
    ∃ bm, ix.rangeScan label prop lo hi = some bm ∧ ∀ x, x ∈ bm ↔
      ix.FiledAt label prop (fun k => .ofBits lo ≤ k ∧ k ≤ .ofBits hi) x := by
  cases hidx : ix.rangeIndexes.get (label, prop) with
  | none => exact ⟨∅, by simp only [rangeScan, hidx], by simp [FiledAt, hidx]⟩
  | some idx =>
    refine ⟨_, rangeScan_of_le hidx (not_lt.mpr hle), fun x => ?_⟩
    rw [mem_foldl_union Prod.snd]
    simp [FiledAt, hidx, and_assoc]

section Keys
variable {ix : PropertyIndex} {label prop : String} {S K B O : OrderedFloat → Prop}

/-- A scan of the keys `S` for a comparison with the keys `K`: it may take some keys `B` that are
none of these, and leave out some keys `O` that are. -/
theorem filedAt_scan (hS : ∀ k, S k → K k ∨ B k) (hB : ∀ k, B k → S k)
    (hK : ∀ k, K k → S k ∨ O k) (x : UInt32) :
    ix.FiledAt label prop S x ↔
      ix.FiledBut label prop B K x ∨
        ix.FiledAt label prop K x ∧ ¬ ix.FiledBut label prop O S x := by
  constructor
  · intro hscan
    rcases filedAt_or (hscan.mono hS) with hmeant | hextra
    · exact Or.inr ⟨hmeant, fun hmissing => hmissing.2 hscan⟩
    · by_cases hmeant : ix.FiledAt label prop K x
      · exact Or.inr ⟨hmeant, fun hmissing => hmissing.2 hscan⟩
      · exact Or.inl ⟨hextra, hmeant⟩
  · rintro (hextra | ⟨hmeant, hfound⟩)
    · exact hextra.1.mono hB
    · by_contra hscan
      rcases filedAt_or (hmeant.mono hK) with hin | hout
      · exact hscan hin
      · exact hfound ⟨hout, hscan⟩

theorem not_filedBut_none (K : OrderedFloat → Prop) (x : UInt32) :
    ¬ ix.FiledBut label prop (fun _ => False) K x := by
  rintro ⟨⟨_, _, _, _, hfalse, _⟩, _⟩
  exact hfalse

end Keys
end PropertyIndex

namespace Predicate

/-- What the predicate says of a node. -/
def Holds (ix : PropertyIndex) (x : UInt32) : Predicate → Prop
  | .eq label prop val => ix.FiledAs label prop val x
  | .gt label prop val => ix.FiledAt label prop (fun k => val.number < k) x
  | .gte label prop val => ix.FiledAt label prop (fun k => val.number ≤ k) x
  | .lt label prop val => ix.FiledAt label prop (fun k => k < val.number) x
  | .lte label prop val => ix.FiledAt label prop (fun k => k ≤ val.number) x
  | .isIn label prop vals => ∃ val ∈ vals, ix.FiledAs label prop val x
  | .and p q => p.Holds ix x ∧ q.Holds ix x
  | .or p q => p.Holds ix x ∨ q.Holds ix x
  | .not p => ¬ p.Holds ix x

def NotFree : Predicate → Prop
  | .and p q => p.NotFree ∧ q.NotFree
  | .or p q => p.NotFree ∧ q.NotFree
  | .not _ => False
  | _ => True

/-- The constants compared with. -/
def FiniteConstants : Predicate → Prop
  | .gt _ _ val => val.IsFiniteNumber
  | .gte _ _ val => val.IsFiniteNumber
  | .lt _ _ val => val.IsFiniteNumber
  | .lte _ _ val => val.IsFiniteNumber
  | .and p q => p.FiniteConstants ∧ q.FiniteConstants
  | .or p q => p.FiniteConstants ∧ q.FiniteConstants
  | .not p => p.FiniteConstants
  | _ => True

mutual

/-- The node is taken by mistake: it is filed under the very constant of a strict comparison and
under nothing else the comparison holds of, and no other part of the predicate makes up for it. -/
def Extra (ix : PropertyIndex) (x : UInt32) : Predicate → Prop
  | .gt label prop val =>
    ix.FiledBut label prop (fun k => k = val.number) (fun k => val.number < k) x
  | .lt label prop val =>
    ix.FiledBut label prop (fun k => k = val.number) (fun k => k < val.number) x
  | .and p q =>
    (p.Extra ix x ∧ (q.Extra ix x ∨ q.Holds ix x ∧ ¬ q.Missing ix x)) ∨
      (q.Extra ix x ∧ (p.Extra ix x ∨ p.Holds ix x ∧ ¬ p.Missing ix x))
  | .or p q => (p.Extra ix x ∨ q.Extra ix x) ∧ ¬ p.Holds ix x ∧ ¬ q.Holds ix x
  | _ => False

/-- The node is missed by mistake: of the numbers the comparison holds of, it is filed only under
infinite ones and NaN, and no other part of the predicate makes up for it. -/
def Missing (ix : PropertyIndex) (x : UInt32) : Predicate → Prop
  | .gt label prop val =>
    ix.FiledBut label prop (fun k => .maxFinite < k) (fun k => val.number ≤ k ∧ k ≤ .maxFinite) x
  | .gte label prop val =>
    ix.FiledBut label prop (fun k => .maxFinite < k) (fun k => val.number ≤ k ∧ k ≤ .maxFinite) x
  | .lt label prop val =>
    ix.FiledBut label prop (fun k => k < .minFinite) (fun k => .minFinite ≤ k ∧ k ≤ val.number) x
  | .lte label prop val =>
    ix.FiledBut label prop (fun k => k < .minFinite) (fun k => .minFinite ≤ k ∧ k ≤ val.number) x
  | .and p q => p.Holds ix x ∧ q.Holds ix x ∧ (p.Missing ix x ∨ q.Missing ix x)
  | .or p q =>
    (p.Missing ix x ∨ q.Missing ix x) ∧ (p.Holds ix x → p.Missing ix x) ∧
      (q.Holds ix x → q.Missing ix x) ∧ ¬ p.Extra ix x ∧ ¬ q.Extra ix x
  | _ => False

end

/-- A bitmap is what the predicate says, but for the nodes taken and missed by mistake. -/
structure Accounts (ix : PropertyIndex) (p : Predicate) (bm : RoaringBitmap) : Prop where
  mem : ∀ x, x ∈ bm ↔ p.Extra ix x ∨ p.Holds ix x ∧ ¬ p.Missing ix x
  extra : ∀ x, p.Extra ix x → ¬ p.Holds ix x
  missing : ∀ x, p.Missing ix x → p.Holds ix x

section Leaves
variable (ix : PropertyIndex) (label prop : String) {val : Value}

/-- A comparison with the keys `K`, made by a scan that takes the keys `B` by mistake and leaves out
the keys `O`. -/
theorem accounts_scan {p : Predicate} {lo hi : UInt64} {K B O : OrderedFloat → Prop}
    (heval : ix.evaluate p = ix.rangeScan label prop lo hi)
    (hle : OrderedFloat.ofBits lo ≤ OrderedFloat.ofBits hi)
    (hS : ∀ k, .ofBits lo ≤ k ∧ k ≤ .ofBits hi → K k ∨ B k)
    (hB : ∀ k, B k → .ofBits lo ≤ k ∧ k ≤ .ofBits hi)
    (hK : ∀ k, K k → (.ofBits lo ≤ k ∧ k ≤ .ofBits hi) ∨ O k) (hO : ∀ k, O k → K k)
    (hextra : ∀ x, p.Extra ix x ↔ ix.FiledBut label prop B K x)
    (hholds : ∀ x, p.Holds ix x ↔ ix.FiledAt label prop K x)
    (hmissing : ∀ x, p.Missing ix x ↔
      ix.FiledBut label prop O (fun k => .ofBits lo ≤ k ∧ k ≤ .ofBits hi) x) :
    ∃ bm, ix.evaluate p = some bm ∧ Accounts ix p bm := by
  obtain ⟨bm, hrun, hmem⟩ := ix.mem_rangeScan label prop hle
  refine ⟨bm, heval.trans hrun, ⟨fun x => ?_, fun x => ?_, fun x => ?_⟩⟩
  · rw [hmem, hextra, hholds, hmissing]
    exact PropertyIndex.filedAt_scan hS hB hK x
  · rw [hextra, hholds]
    exact And.right
  · rw [hmissing, hholds]
    exact fun hx => hx.1.mono hO

theorem accounts_gt (h : val.number.IsFinite) :
    ∃ bm, ix.evaluate (.gt label prop val) = some bm ∧ Accounts ix (.gt label prop val) bm := by
  obtain ⟨_, hmax⟩ := OrderedFloat.isFinite_iff.mp h
  refine accounts_scan ix label prop rfl hmax ?_ ?_ ?_ ?_ (fun _ => Iff.rfl) (fun _ => Iff.rfl)
    (fun _ => Iff.rfl)
  · exact fun k hk => (lt_or_eq_of_le hk.1).imp id Eq.symm
  · rintro k rfl
    exact ⟨le_refl _, hmax⟩
  · exact fun k hk => (le_or_gt k .maxFinite).imp (fun hle => ⟨le_of_lt hk, hle⟩) id
  · exact fun k hk => lt_of_le_of_lt hmax hk

theorem accounts_gte (h : val.number.IsFinite) :
    ∃ bm, ix.evaluate (.gte label prop val) = some bm ∧ Accounts ix (.gte label prop val) bm := by
  obtain ⟨_, hmax⟩ := OrderedFloat.isFinite_iff.mp h
  refine accounts_scan ix label prop rfl hmax ?_ (fun _ => False.elim) ?_ ?_
    (fun x => (iff_false_intro (PropertyIndex.not_filedBut_none _ x)).symm) (fun _ => Iff.rfl)
    (fun _ => Iff.rfl)
  · exact fun k hk => Or.inl hk.1
  · exact fun k hk => (le_or_gt k .maxFinite).imp (fun hle => ⟨hk, hle⟩) id
  · exact fun k hk => le_of_lt (lt_of_le_of_lt hmax hk)

theorem accounts_lt (h : val.number.IsFinite) :
    ∃ bm, ix.evaluate (.lt label prop val) = some bm ∧ Accounts ix (.lt label prop val) bm := by
  obtain ⟨hmin, _⟩ := OrderedFloat.isFinite_iff.mp h
  refine accounts_scan ix label prop rfl hmin ?_ ?_ ?_ ?_ (fun _ => Iff.rfl) (fun _ => Iff.rfl)
    (fun _ => Iff.rfl)
  · exact fun k hk => lt_or_eq_of_le hk.2
  · rintro k rfl
    exact ⟨hmin, le_refl _⟩
  · exact fun k hk => (le_or_gt .minFinite k).imp (fun hle => ⟨hle, le_of_lt hk⟩) id
  · exact fun k hk => lt_of_lt_of_le hk hmin

theorem accounts_lte (h : val.number.IsFinite) :
    ∃ bm, ix.evaluate (.lte label prop val) = some bm ∧ Accounts ix (.lte label prop val) bm := by
  obtain ⟨hmin, _⟩ := OrderedFloat.isFinite_iff.mp h
  refine accounts_scan ix label prop rfl hmin ?_ (fun _ => False.elim) ?_ ?_
    (fun x => (iff_false_intro (PropertyIndex.not_filedBut_none _ x)).symm) (fun _ => Iff.rfl)
    (fun _ => Iff.rfl)
  · exact fun k hk => Or.inl hk.2
  · exact fun k hk => (le_or_gt .minFinite k).imp (fun hle => ⟨hle, hk⟩) id
  · exact fun k hk => le_of_lt (lt_of_lt_of_le hk hmin)

theorem accounts_isIn (vals : List Value) :
    ∃ bm, ix.evaluate (.isIn label prop vals) = some bm ∧
      Accounts ix (.isIn label prop vals) bm := by
  refine ⟨_, rfl, ⟨fun x => ?_, fun x => False.elim, fun x => False.elim⟩⟩
  refine (PropertyIndex.mem_foldl_union id x _ ∅).trans ?_
  simp only [Extra, Holds, Missing, Finset.notMem_empty, false_or, not_false_eq_true, and_true,
    List.mem_map, id, exists_exists_and_eq_and, PropertyIndex.mem_evaluateEq]

end Leaves

section Connectives
variable {ix : PropertyIndex} {p q : Predicate} {a b : RoaringBitmap}

theorem Accounts.and (hp : Accounts ix p a) (hq : Accounts ix q b) :
    Accounts ix (.and p q) (a ∩ b) where
  mem := by
    intro x
    rw [Finset.mem_inter, hp.mem x, hq.mem x]
    simp only [Extra, Holds, Missing]
    constructor
    · rintro ⟨hextrap | ⟨hholdsp, hfoundp⟩, htakenq⟩
      · exact Or.inl (Or.inl ⟨hextrap, htakenq⟩)
      · rcases htakenq with hextraq | ⟨hholdsq, hfoundq⟩
        · exact Or.inl (Or.inr ⟨hextraq, Or.inr ⟨hholdsp, hfoundp⟩⟩)
        · exact Or.inr ⟨⟨hholdsp, hholdsq⟩, fun hmissing => hmissing.2.2.elim hfoundp hfoundq⟩
    · rintro ((⟨hextrap, htakenq⟩ | ⟨hextraq, htakenp⟩) | ⟨⟨hholdsp, hholdsq⟩, hfound⟩)
      · exact ⟨Or.inl hextrap, htakenq⟩
      · exact ⟨htakenp, Or.inl hextraq⟩
      · exact ⟨Or.inr ⟨hholdsp, fun hmissing => hfound ⟨hholdsp, hholdsq, Or.inl hmissing⟩⟩,
          Or.inr ⟨hholdsq, fun hmissing => hfound ⟨hholdsp, hholdsq, Or.inr hmissing⟩⟩⟩
  extra := by
    intro x hx hholds
    rcases hx with ⟨hx, _⟩ | ⟨hx, _⟩
    · exact hp.extra x hx hholds.1
    · exact hq.extra x hx hholds.2
  missing := fun _ hx => ⟨hx.1, hx.2.1⟩

theorem Accounts.or (hp : Accounts ix p a) (hq : Accounts ix q b) :
    Accounts ix (.or p q) (a ∪ b) where
  mem := by
    intro x
    rw [Finset.mem_union, hp.mem x, hq.mem x]
    simp only [Extra, Holds, Missing]
    constructor
    · intro htaken
      by_cases hholds : p.Holds ix x ∨ q.Holds ix x
      · refine Or.inr ⟨hholds, fun ⟨_, hmissp, hmissq, hextrap, hextraq⟩ => ?_⟩
        rcases htaken with (hextra | hright) | (hextra | hright)
        · exact hextrap hextra
        · exact hright.2 (hmissp hright.1)
        · exact hextraq hextra
        · exact hright.2 (hmissq hright.1)
      · have hextra : p.Extra ix x ∨ q.Extra ix x :=
          htaken.imp (fun hp => hp.resolve_right fun hright => hholds (Or.inl hright.1))
            (fun hq => hq.resolve_right fun hright => hholds (Or.inr hright.1))
        exact Or.inl ⟨hextra, fun hp => hholds (Or.inl hp), fun hq => hholds (Or.inr hq)⟩
    · rintro (⟨hextra, _⟩ | ⟨hholds, hfound⟩)
      · exact hextra.imp Or.inl Or.inl
      · by_contra htaken
        have hmissp : p.Holds ix x → p.Missing ix x := fun hp =>
          by_contra fun hnot => htaken (Or.inl (Or.inr ⟨hp, hnot⟩))
        have hmissq : q.Holds ix x → q.Missing ix x := fun hq =>
          by_contra fun hnot => htaken (Or.inr (Or.inr ⟨hq, hnot⟩))
        exact hfound ⟨hholds.imp hmissp hmissq, hmissp, hmissq,
          fun hextra => htaken (Or.inl (Or.inl hextra)),
          fun hextra => htaken (Or.inr (Or.inl hextra))⟩
  extra := fun _ hx hholds => hholds.elim hx.2.1 hx.2.2
  missing := fun x hx => hx.1.imp (hp.missing x) (hq.missing x)

end Connectives

theorem evaluate_accounts (ix : PropertyIndex) {p : Predicate} (hnot : p.NotFree)
    (hfinite : p.FiniteConstants) : ∃ bm, ix.evaluate p = some bm ∧ Accounts ix p bm := by
  induction p with
  | eq label prop val =>
    refine ⟨_, rfl, ⟨fun x => ?_, fun x => False.elim, fun x => False.elim⟩⟩
    simp only [PropertyIndex.mem_evaluateEq, Extra, Holds, Missing, false_or, not_false_eq_true,
      and_true]
  | gt label prop val => exact accounts_gt ix label prop (Value.IsFiniteNumber.number hfinite)
  | gte label prop val => exact accounts_gte ix label prop (Value.IsFiniteNumber.number hfinite)
  | lt label prop val => exact accounts_lt ix label prop (Value.IsFiniteNumber.number hfinite)
  | lte label prop val => exact accounts_lte ix label prop (Value.IsFiniteNumber.number hfinite)
  | isIn label prop vals => exact accounts_isIn ix label prop vals
  | and p q ihp ihq =>
    obtain ⟨a, hruna, ha⟩ := ihp hnot.1 hfinite.1
    obtain ⟨b, hrunb, hb⟩ := ihq hnot.2 hfinite.2
    exact ⟨a ∩ b, by rw [PropertyIndex.evaluate, hruna, hrunb], ha.and hb⟩
  | or p q ihp ihq =>
    obtain ⟨a, hruna, ha⟩ := ihp hnot.1 hfinite.1
    obtain ⟨b, hrunb, hb⟩ := ihq hnot.2 hfinite.2
    exact ⟨a ∪ b, by rw [PropertyIndex.evaluate, hruna, hrunb], ha.or hb⟩
  | not p _ => exact hnot.elim

/-- **Predicate evaluation matches its meaning** exactly where no node is taken by mistake and none
is missed by mistake. -/
theorem evaluate_means_iff (ix : PropertyIndex) {p : Predicate} (hnot : p.NotFree)
    (hfinite : p.FiniteConstants) :
    (∃ bm, ix.evaluate p = some bm ∧ ∀ x, x ∈ bm ↔ p.Holds ix x) ↔
      ∀ x, ¬ p.Extra ix x ∧ ¬ p.Missing ix x := by
  obtain ⟨bm, hrun, haccounts⟩ := evaluate_accounts ix hnot hfinite
  constructor
  · rintro ⟨bm', hrun', hmeans⟩ x
    obtain rfl := Option.some.inj (hrun.symm.trans hrun')
    have hmem := haccounts.mem x
    rw [hmeans x] at hmem
    constructor
    · exact fun hx => haccounts.extra x hx (hmem.mpr (Or.inl hx))
    · intro hx
      rcases hmem.mp (haccounts.missing x hx) with hextra | hfound
      · exact haccounts.extra x hextra (haccounts.missing x hx)
      · exact hfound.2 hx
  · intro hright
    refine ⟨bm, hrun, fun x => (haccounts.mem x).trans ?_⟩
    obtain ⟨hextra, hmissing⟩ := hright x
    constructor
    · rintro (hx | hx)
      · exact absurd hx hextra
      · exact hx.1
    · exact fun hx => Or.inr ⟨hx, hmissing⟩

/-- Dearer than 1 or at most 1: the node with the constant's own price is rightly taken for the
second. -/
theorem evaluate_means_iff_priced :
    ∃ bm, priced.evaluate (.or (.gt "item" "price" (.float priceOne))
        (.lte "item" "price" (.float priceOne))) = some bm ∧
      ∀ x, x ∈ bm ↔ Holds priced x (.or (.gt "item" "price" (.float priceOne))
        (.lte "item" "price" (.float priceOne))) := by
  have hone : (OrderedFloat.ofBits priceOne).IsFinite := OrderedFloat.finite_ofBits (by decide)
  have hkeys : ∀ e ∈ prices.entries, .minFinite ≤ e.1 ∧ e.1 ≤ .maxFinite := by decide
  have hinside : ∀ x K L, (∀ k, K k → k < .minFinite ∨ .maxFinite < k) →
      ¬ priced.FiledBut "item" "price" K L x := by
    rintro x K L hK ⟨⟨idx, hidx, e, he, hout, _⟩, _⟩
    obtain rfl := Option.some.inj (get_priced.symm.trans hidx)
    rcases hK e.1 hout with hlow | hhigh
    · exact absurd hlow (not_lt.mpr (hkeys e he).1)
    · exact absurd hhigh (not_lt.mpr (hkeys e he).2)
  have hnot : NotFree (.or (.gt "item" "price" (.float priceOne))
    (.lte "item" "price" (.float priceOne))) := ⟨trivial, trivial⟩
  refine (evaluate_means_iff priced hnot ⟨hone, hone⟩).mpr fun x => ⟨?_, ?_⟩
  · rintro ⟨hextra | hextra, _, hlte⟩
    · exact hlte (hextra.1.mono fun k hk => le_of_eq hk)
    · exact hextra
  · rintro ⟨hmissing | hmissing, _⟩
    · exact hinside x _ _ (fun k hk => Or.inr hk) hmissing
    · exact hinside x _ _ (fun k hk => Or.inl hk) hmissing

/-- What costs 1 is found among what costs more than 1. -/
theorem strict_takes_equal :
    ¬ ∀ (ix : PropertyIndex) (p : Predicate), p.NotFree → p.FiniteConstants →
      ∃ bm, ix.evaluate p = some bm ∧ ∀ x, x ∈ bm ↔ p.Holds ix x := by
  intro h
  have hone : (OrderedFloat.ofBits priceOne).IsFinite := OrderedFloat.finite_ofBits (by decide)
  obtain ⟨bm, hrun, hmeans⟩ := h priced (.gt "item" "price" (.float priceOne)) trivial hone
  obtain ⟨bm', hrun', hmem⟩ := priced.mem_rangeScan "item" "price"
    (OrderedFloat.isFinite_iff.mp hone).2
  obtain rfl := Option.some.inj (hrun'.symm.trans hrun)
  have htaken : 1 ∈ bm' :=
    (hmem 1).mpr ⟨prices, get_priced, (.ofBits priceOne, {1}), by decide, by decide, by decide⟩
  obtain ⟨idx, hidx, e, he, hlt, hx⟩ := (hmeans 1).mp htaken
  obtain rfl := Option.some.inj (get_priced.symm.trans hidx)
  have hnone : ∀ e ∈ prices.entries, OrderedFloat.ofBits priceOne < e.1 → 1 ∉ e.2 := by decide
  exact hnone e he hlt hx

/-! ## Between two readings

A `Not` is never worked out, so of a predicate with negations, or with constants of any kind, the
answer is only what lies between two readings: it has every node the cautious one holds of, and
none that the generous one does not hold of.
-/

/-- The cautious reading: under finite numbers only, and nothing comes of a negation. -/
def Certain (ix : PropertyIndex) (x : UInt32) : Predicate → Prop
  | .eq label prop val => ix.FiledAs label prop val x
  | .gt label prop val =>
    ix.FiledAt label prop (fun k => val.number < k ∧ k ≤ .maxFinite) x
  | .gte label prop val =>
    ix.FiledAt label prop (fun k => val.number ≤ k ∧ k ≤ .maxFinite) x
  | .lt label prop val =>
    ix.FiledAt label prop (fun k => .minFinite ≤ k ∧ k < val.number) x
  | .lte label prop val =>
    ix.FiledAt label prop (fun k => .minFinite ≤ k ∧ k ≤ val.number) x
  | .isIn label prop vals => ∃ val ∈ vals, ix.FiledAs label prop val x
  | .and p q => p.Certain ix x ∧ q.Certain ix x
  | .or p q => p.Certain ix x ∨ q.Certain ix x
  | .not _ => False

/-- The generous reading: no comparison is strict, but for those under a negation. -/
def relaxed : Predicate → Predicate
  | .gt label prop val => .gte label prop val
  | .lt label prop val => .lte label prop val
  | .and p q => .and p.relaxed q.relaxed
  | .or p q => .or p.relaxed q.relaxed
  | p => p

theorem mem_of_rangeScan {ix : PropertyIndex} {label prop : String} {lo hi : UInt64}
    {bm : RoaringBitmap} (h : ix.rangeScan label prop lo hi = some bm) (x : UInt32) :
    x ∈ bm ↔ ix.FiledAt label prop (fun k => .ofBits lo ≤ k ∧ k ≤ .ofBits hi) x := by
  by_cases hle : OrderedFloat.ofBits lo ≤ OrderedFloat.ofBits hi
  · obtain ⟨bm', hrun, hmem⟩ := ix.mem_rangeScan label prop hle
    obtain rfl := Option.some.inj (hrun.symm.trans h)
    exact hmem x
  · -- the bounds are the wrong way round, so there was nothing to scan
    cases hidx : ix.rangeIndexes.get (label, prop) with
    | some idx =>
      rw [PropertyIndex.rangeScan_of_lt hidx (not_le.mp hle)] at h
      exact absurd h (by simp)
    | none =>
      simp only [PropertyIndex.rangeScan, hidx, Option.some.injEq] at h
      subst h
      simp [PropertyIndex.FiledAt, hidx]

/-- Both readings of one scan. -/
theorem between_of_scan {ix : PropertyIndex} {label prop : String} {lo hi : UInt64}
    {bm : RoaringBitmap} {K L : OrderedFloat → Prop}
    (h : ix.rangeScan label prop lo hi = some bm)
    (hK : ∀ k, K k → .ofBits lo ≤ k ∧ k ≤ .ofBits hi)
    (hL : ∀ k, .ofBits lo ≤ k ∧ k ≤ .ofBits hi → L k) (x : UInt32) :
    (ix.FiledAt label prop K x → x ∈ bm) ∧ (x ∈ bm → ix.FiledAt label prop L x) := by
  rw [mem_of_rangeScan h]
  exact ⟨fun hx => hx.mono hK, fun hx => hx.mono hL⟩

/-- **What evaluation finds lies between the two readings**, whatever the predicate. -/
theorem evaluate_between {ix : PropertyIndex} {p : Predicate} {bm : RoaringBitmap}
    (h : ix.evaluate p = some bm) (x : UInt32) :
    (p.Certain ix x → x ∈ bm) ∧ (x ∈ bm → p.relaxed.Holds ix x) := by
  induction p generalizing bm with
  | eq label prop val =>
    obtain rfl := Option.some.inj h
    rw [PropertyIndex.mem_evaluateEq]
    exact ⟨id, id⟩
  | gt label prop val =>
    exact between_of_scan h (fun k hk => ⟨le_of_lt hk.1, hk.2⟩) (fun k hk => hk.1) x
  | gte label prop val => exact between_of_scan h (fun k hk => hk) (fun k hk => hk.1) x
  | lt label prop val =>
    exact between_of_scan h (fun k hk => ⟨hk.1, le_of_lt hk.2⟩) (fun k hk => hk.2) x
  | lte label prop val => exact between_of_scan h (fun k hk => hk) (fun k hk => hk.2) x
  | isIn label prop vals =>
    obtain rfl := Option.some.inj h
    have hmem : x ∈ (vals.map (ix.evaluateEq label prop)).foldl (fun a b => a ∪ b) ∅ ↔
        ∃ val ∈ vals, ix.FiledAs label prop val x := by
      refine (PropertyIndex.mem_foldl_union id x _ ∅).trans ?_
      simp only [Finset.notMem_empty, false_or, List.mem_map, id, exists_exists_and_eq_and,
        PropertyIndex.mem_evaluateEq]
    exact ⟨hmem.mpr, hmem.mp⟩
  | and p q ihp ihq =>
    rw [PropertyIndex.evaluate] at h
    cases hp : ix.evaluate p with
    | none => rw [hp] at h; exact absurd h (by simp)
    | some a =>
      cases hq : ix.evaluate q with
      | none => rw [hp, hq] at h; exact absurd h (by simp)
      | some b =>
        rw [hp, hq] at h
        obtain rfl := Option.some.inj h
        rw [Finset.mem_inter]
        obtain ⟨hlowp, hhighp⟩ := ihp hp
        obtain ⟨hlowq, hhighq⟩ := ihq hq
        exact ⟨fun hx => ⟨hlowp hx.1, hlowq hx.2⟩, fun hx => ⟨hhighp hx.1, hhighq hx.2⟩⟩
  | or p q ihp ihq =>
    rw [PropertyIndex.evaluate] at h
    cases hp : ix.evaluate p with
    | none => rw [hp] at h; exact absurd h (by simp)
    | some a =>
      cases hq : ix.evaluate q with
      | none => rw [hp, hq] at h; exact absurd h (by simp)
      | some b =>
        rw [hp, hq] at h
        obtain rfl := Option.some.inj h
        rw [Finset.mem_union]
        obtain ⟨hlowp, hhighp⟩ := ihp hp
        obtain ⟨hlowq, hhighq⟩ := ihq hq
        exact ⟨fun hx => hx.imp hlowp hlowq, fun hx => hx.imp hhighp hhighq⟩
  | not p _ =>
    obtain rfl := Option.some.inj h
    exact ⟨False.elim, fun hx => absurd hx (Finset.notMem_empty x)⟩

/-- Not dear, or dearer than 1: the negation is never worked out. -/
theorem evaluate_between_priced :
    (Certain priced 2 (.or (.not (.eq "item" "dear" .null))
      (.gt "item" "price" (.float priceOne))) → 2 ∈ ({1, 2} : RoaringBitmap)) ∧
    (2 ∈ ({1, 2} : RoaringBitmap) → Holds priced 2 (relaxed (.or (.not (.eq "item" "dear" .null))
      (.gt "item" "price" (.float priceOne))))) := by
  have hscan : priced.evaluate (.gt "item" "price" (.float priceOne)) = some {1, 2} :=
    (PropertyIndex.rangeScan_of_le get_priced (by decide)).trans (by decide)
  refine evaluate_between ?_ 2
  rw [PropertyIndex.evaluate, hscan]
  decide

end Predicate
end LightGraph
