import Mathlib
import LightGraph.Lib.PartialSort

/-!
# Single-precision floats

What the logical model of `Float32` says about order and about small sums. Every operation unpacks
its arguments, works on sign, mantissa and exponent, and packs the result again.

A float that is a number has a place among the others (`compare_eq`), so a comparison of floats is
one by a key that NaN lacks. A positive float times one, added to zero, is positive still
(`pos_zero_add_mul_one`): the mantissa is moved up by 23 places and back without loss.
-/

set_option autoImplicit false

namespace Lib.Binary32

open Float.Model Float.Model.UnpackedFloat

/-! ## Order -/

/-- Where a float stands, if it is a number. Both zeros stand at one place. -/
def place : UnpackedFloat → Option (ℤ ×ₗ ℤ ×ₗ ℤ)
  | .notANumber => none
  | .infinity .negative => some (toLex (-2, toLex (0, 0)))
  | .finite .negative m e _ => some (toLex (-1, toLex (-e, -m)))
  | .zero _ => some (toLex (0, toLex (0, 0)))
  | .finite .positive m e _ => some (toLex (1, toLex (e, m)))
  | .infinity .positive => some (toLex (2, toLex (0, 0)))

theorem compare_triple (r r' x x' y y' : ℤ) :
    compare (toLex (r, toLex (x, y))) (toLex (r', toLex (x', y')))
      = (compare r r').then ((compare x x').then (compare y y')) := by
  simp only [Prod.Lex.compare_def, compareLex, compareOn, ofLex_toLex]

theorem compare_cast (m m' : ℕ) : compare (m : ℤ) m' = compare m m' := by
  simp only [compare, compareOfLessAndEq, Int.ofNat_lt, Int.ofNat_inj]

theorem compare_neg (x y : ℤ) : compare (-x) (-y) = (compare x y).swap := by
  rcases lt_trichotomy x y with h | h | h
  · rw [compare_gt_iff_gt.mpr (neg_lt_neg h), compare_lt_iff_lt.mpr h]
    rfl
  · rw [compare_eq_iff_eq.mpr (congrArg Neg.neg h), compare_eq_iff_eq.mpr h]
    rfl
  · rw [compare_lt_iff_lt.mpr (neg_lt_neg h), compare_gt_iff_gt.mpr h]
    rfl

theorem compare_eq : ComparesBy UnpackedFloat.compare place := by
  intro a b
  rcases a with s | _ | s | ⟨s, m, e, hm⟩ <;> rcases b with s' | _ | s' | ⟨s', m', e', hm'⟩ <;>
    try cases s <;> try cases s'
  case finite.finite.negative.negative =>
    simp only [UnpackedFloat.compare, place, compareKeys, compare_triple, compare_neg, compare_cast,
      Ordering.swap_then]
    rfl
  case finite.finite.positive.positive =>
    simp only [UnpackedFloat.compare, place, compareKeys, compare_triple, compare_cast]
    rfl
  -- the others differ in kind or in sign
  all_goals rfl

/-! ## Positive floats -/

/-- Mantissa and exponent are those of a number of the format. -/
def Canonical (m : ℕ) (e : ℤ) : Prop :=
  Format.binary32.targetExponent (totalExponent m e) = e

theorem canonical_iff {m : ℕ} {e : ℤ} :
    Canonical m e ↔ max ((m.log2 : ℤ) + 1 + e - 24) (-149) = e := Iff.rfl

theorem canonical_of_lt {m : ℕ} {e : ℤ} (hm : m < 2 ^ 24) (he : -149 ≤ e)
    (hnorm : e = -149 ∨ 2 ^ 23 ≤ m) : Canonical m e := by
  rw [canonical_iff]
  by_cases hz : m = 0
  · subst hz
    have := hnorm.resolve_right (by omega)
    subst this
    rfl
  · have hlt : m.log2 < 24 := (Nat.log2_lt hz).mpr hm
    rcases hnorm with rfl | hnorm
    · omega
    · have hle : 23 ≤ m.log2 := (Nat.le_log2 hz).mpr hnorm
      omega

/-- The leading one of a normal number is not stored. -/
theorem toNat_one_append (v : BitVec 23) : (1#1 ++ v).toNat = 2 ^ 23 + v.toNat := by
  rw [BitVec.toNat_append, ← Nat.shiftLeft_add_eq_or_of_lt v.isLt]
  rfl

/-- What a float of 32 bits unpacks to. -/
theorem canonical_unpack {b : BitVec Format.binary32.numBits} {s : Sign} {m : ℕ} {e : ℤ}
    {hm : 0 < m} (h : UnpackedFloat.unpack Format.binary32 b = .finite s m e hm) :
    Canonical m e := by
  have hbias : (Format.binary32.exponentBias : ℤ) = 127 := rfl
  have hlt : (unpackMantissa b).toNat < 2 ^ 23 := (unpackMantissa b).isLt
  unfold UnpackedFloat.unpack at h
  simp only at h
  split at h
  · split at h <;> cases h
  · split at h
    · -- a subnormal number
      rename_i hexp
      split at h
      · cases h
      · obtain ⟨-, rfl, rfl⟩ := UnpackedFloat.finite.inj h
        rw [hexp, hbias]
        exact canonical_of_lt (by omega) (by simp) (Or.inl (by simp))
    · -- a normal one
      rename_i hexp
      obtain ⟨-, rfl, rfl⟩ := UnpackedFloat.finite.inj h
      have hpos : 0 < (unpackExponent b).toNat :=
        Nat.pos_of_ne_zero fun hzero => hexp (BitVec.eq_of_toNat_eq hzero)
      have hmant := toNat_one_append (unpackMantissa b)
      rw [hbias]
      refine canonical_of_lt (lt_of_eq_of_lt hmant (by omega)) ?_
        (Or.inr (hmant ▸ Nat.le_add_right _ _))
      show -149 ≤ ((unpackExponent b).toNat : ℤ) - (127 + 23)
      omega

/-- Greater than zero. -/
def Pos : UnpackedFloat → Prop
  | .infinity s => s = .positive
  | .finite s _ _ _ => s = .positive
  | _ => False

theorem pos_iff {u : UnpackedFloat} :
    (UnpackedFloat.zero .positive).compare u = some .lt ↔ Pos u := by
  rcases u with s | _ | s | ⟨s, m, e, hm⟩ <;> try cases s
  all_goals simp [UnpackedFloat.compare, Pos]

theorem repeat_shiftRightOne (m n : ℕ) :
    n.repeat ExtendedMantissa.shiftRightOne ⟨m * 2 ^ n, false, false⟩ = ⟨m, false, false⟩ := by
  induction n generalizing m with
  | zero => rw [pow_zero, mul_one]; rfl
  | succ n ih =>
    rw [Nat.repeat, pow_succ, mul_comm (2 ^ n) 2, ← mul_assoc, ih]
    simp [ExtendedMantissa.shiftRightOne]

theorem log2_mul_two_pow {m : ℕ} (hm : 0 < m) (n : ℕ) : (m * 2 ^ n).log2 = m.log2 + n := by
  induction n with
  | zero => rw [pow_zero, mul_one]; rfl
  | succ n ih =>
    have hne : m * 2 ^ n ≠ 0 := (Nat.mul_pos hm (Nat.two_pow_pos n)).ne'
    rw [pow_succ, ← mul_assoc, mul_comm _ 2, Nat.log2_two_mul hne, ih]
    rfl

/-- A mantissa that was moved up is moved back to its exponent without loss. -/
theorem shiftToTargetExponent_shifted {m : ℕ} {e : ℤ} (hc : Canonical m e) (hm : 0 < m) (n : ℕ) :
    shiftToTargetExponent Format.binary32 (m * 2 ^ n) (e - n) .exact
      = (⟨m, false, false⟩, e) := by
  have htotal : totalExponent (m * 2 ^ n) (e - n) = totalExponent m e := by
    rw [totalExponent, totalExponent, log2_mul_two_pow hm]
    omega
  have hamount : (e - (e - (n : ℤ))).toNat = n := by omega
  rw [shiftToTargetExponent, htotal, hc, shiftToExponent, hamount]
  refine Prod.ext (repeat_shiftRightOne m n) ?_
  show e - n + n = e
  omega

theorem roundWithAccuracy_shifted {m : ℕ} {e : ℤ} (hc : Canonical m e) (hm : 0 < m) (s : Sign)
    (n : ℕ) :
    roundWithAccuracy Format.binary32 s (m * 2 ^ n) (e - n) .exact = .finite s m e hm := by
  have hfirst := shiftToTargetExponent_shifted hc hm n
  have hsecond := shiftToTargetExponent_shifted hc hm 0
  rw [pow_zero, mul_one, Nat.cast_zero, sub_zero] at hsecond
  have hrounded : (⟨m, false, false⟩ : ExtendedMantissa).roundedMantissa = m := rfl
  simp only [roundWithAccuracy, hfirst, hrounded, hsecond, hm.ne', dif_neg, not_false_eq_true]

/-- One, unpacked. -/
def one : UnpackedFloat := .finite .positive (2 ^ 23) (-23) (by decide)

theorem mul_one {u : UnpackedFloat} (h : Pos u)
    (hc : ∀ s m e hm, u = .finite s m e hm → Canonical m e) :
    UnpackedFloat.mul Format.binary32 u one = u := by
  rcases u with s | _ | s | ⟨s, m, e, hm⟩
  · obtain rfl : s = .positive := h
    rfl
  · exact h.elim
  · exact h.elim
  · obtain rfl : s = .positive := h
    exact roundWithAccuracy_shifted (hc _ _ _ _ rfl) hm .positive 23

theorem zero_add {u : UnpackedFloat} (h : Pos u) :
    UnpackedFloat.add Format.binary32 (.zero .positive) u = u := by
  rcases u with s | _ | s | ⟨s, m, e, hm⟩
  · rfl
  · exact h.elim
  · exact h.elim
  · rfl

/-! ## Packing a positive float -/

/-- A positive sign and an exponent and a mantissa that are not both zero, and not NaN's. -/
theorem pos_unpack {exponent : BitVec 8} {mantissa : BitVec 23}
    (hnum : exponent = -1#8 → mantissa = 0#23) (hne : exponent = 0#8 → mantissa ≠ 0#23) :
    Pos (UnpackedFloat.unpack Format.binary32
      (packComponents Format.binary32 .positive exponent mantissa)) := by
  simp only [UnpackedFloat.unpack, unpackExponent_packComponents, unpackMantissa_packComponents,
    unpackSign_packComponents, Sign.ofBitVec_toBitVec]
  split
  · rename_i h
    rw [if_pos (hnum h)]
    rfl
  · split
    · rename_i h
      rw [dif_neg (hne h)]
      rfl
    · rfl

/-- Packing keeps a positive float of the format positive. -/
theorem pos_pack {u : UnpackedFloat} (h : Pos u)
    (hc : ∀ s m e hm, u = .finite s m e hm → Canonical m e) :
    Pos (UnpackedFloat.unpack Format.binary32 (UnpackedFloat.pack Format.binary32 u)) := by
  rcases u with s | _ | s | ⟨s, m, e, hm⟩
  · obtain rfl : s = .positive := h
    exact pos_unpack (fun _ => rfl) (fun hzero => absurd hzero (by decide))
  · exact h.elim
  · exact h.elim
  · obtain rfl : s = .positive := h
    have hc := canonical_iff.mp (hc _ _ _ _ rfl)
    have hinf : Pos (UnpackedFloat.unpack Format.binary32
        (packedInfinity Format.binary32 .positive)) :=
      pos_unpack (fun _ => rfl) (fun hzero => absurd hzero (by decide))
    have hbits : Format.binary32.mantissaBits = 24 := rfl
    have hexp : (e + (Format.binary32.exponentBias : ℤ) + (23 : ℕ)).toNat = (e + 150).toNat := by
      show (e + 127 + 23).toNat = (e + 150).toNat
      omega
    unfold UnpackedFloat.pack
    simp only
    split
    · exact hinf
    · rename_i hfit
      have hlog : m.log2 < 24 := by omega
      rw [hexp] at hfit
      split
      · -- a normal number: its exponent is neither the least nor the greatest
        have hfield : (BitVec.ofNat 8 (e + 150).toNat).toNat = (e + 150).toNat := by
          rw [BitVec.toNat_ofNat, Nat.mod_eq_of_lt (by omega)]
        rw [hexp]
        refine pos_unpack (fun hall => ?_) (fun hzero => ?_)
        · rw [hall] at hfield
          have hmax : (-1#8).toNat = 255 := rfl
          omega
        · rw [hzero] at hfield
          have hmin : (0#8).toNat = 0 := rfl
          omega
      · -- a subnormal one: its mantissa fits in what is stored, and is not zero
        rename_i hsub
        rw [hbits] at hsub
        have hfield : (BitVec.ofNat 23 m).toNat = m := by
          rw [BitVec.toNat_ofNat, Nat.mod_eq_of_lt ((Nat.log2_lt hm.ne').mp (by omega))]
        refine pos_unpack (fun hall => absurd hall (by decide)) (fun _ hzero => ?_)
        rw [hzero] at hfield
        exact hm.ne hfield

/-! ## Single floats -/

theorem toModel_zero : (0 : Float32).toModel.unpack = .zero .positive := rfl

theorem toModel_one : (1 : Float32).toModel.unpack = one := rfl

/-- The float nearest to a number. -/
def ofNat (n : ℕ) : Float32 := ⟨Float32.Model.ofNat n⟩

/-- The float nearest to a double. -/
def ofDouble (d : Float.Model) : Float32 :=
  match d.unpack with
  | .finite s m e _ => ⟨Float32.Model.pack (UnpackedFloat.round Format.binary32 s m e)⟩
  | u => ⟨Float32.Model.pack u⟩

/-- The comparison of floats: no answer where one of the two is NaN. -/
def partialCmp (a b : Float32) : Option Ordering := a.toModel.compare b.toModel

/-- Where a float stands among the others. -/
def key (a : Float32) : Option (ℤ ×ₗ ℤ ×ₗ ℤ) := place a.toModel.unpack

theorem partialCmp_by_key : ComparesBy partialCmp key := fun a b =>
  compare_eq a.toModel.unpack b.toModel.unpack

theorem partialCmp_self_iff {a : Float32} : partialCmp a a = none ↔ a.isNaN = true := by
  rw [partialCmp_by_key.self_iff]
  show place a.toModel.unpack = none ↔ a.toModel.unpack.isNaN = true
  rw [UnpackedFloat.isNaN_iff]
  rcases a.toModel.unpack with s | _ | s | ⟨s, m, e, hm⟩ <;> try cases s
  all_goals simp [place]

theorem partialCmp_lt_iff {a b : Float32} : partialCmp a b = some .lt ↔ a < b := by
  have hlt : a.toModel < b.toModel ↔ partialCmp a b = some .lt := beq_iff_eq
  have hdecide : a < b ↔ a.toModel < b.toModel := decide_eq_true_iff
  rw [hdecide, hlt]

/-- A positive float times one is positive, and so it is when it is added to zero. -/
theorem pos_zero_add_mul_one {a : Float32} (h : partialCmp 0 a = some .lt) :
    partialCmp 0 (0 + a * 1) = some .lt := by
  have ha : Pos a.toModel.unpack := pos_iff.mp h
  have hc : ∀ s m e hm, a.toModel.unpack = .finite s m e hm → Canonical m e :=
    fun s m e hm heq => canonical_unpack heq
  have hprod : Pos (a * 1).toModel.unpack := by
    show Pos (UnpackedFloat.unpack Format.binary32 (UnpackedFloat.pack Format.binary32
      (UnpackedFloat.mul Format.binary32 a.toModel.unpack (1 : Float32).toModel.unpack)))
    rw [toModel_one, mul_one ha hc]
    exact pos_pack ha hc
  refine pos_iff.mpr ?_
  show Pos (UnpackedFloat.unpack Format.binary32 (UnpackedFloat.pack Format.binary32
    (UnpackedFloat.add Format.binary32 (0 : Float32).toModel.unpack (a * 1).toModel.unpack)))
  rw [toModel_zero, zero_add hprod]
  exact pos_pack hprod fun s m e hm heq => canonical_unpack heq

/-! ## NaN -/

theorem isNaN_iff {a : Float32} : a.isNaN = true ↔ a.toModel.unpack = .notANumber :=
  UnpackedFloat.isNaN_iff

/-- What is packed as NaN is NaN. -/
theorem isNaN_pack {u : UnpackedFloat} (h : u = .notANumber) :
    (Float32.ofModel (Float32.Model.pack u)).isNaN = true := by
  subst h
  rfl

variable {a b : Float32}

theorem isNaN_add (h : a.isNaN = true ∨ b.isNaN = true) : (a + b).isNaN = true := by
  refine isNaN_pack ?_
  rcases h with h | h <;> rw [isNaN_iff.mp h]
  · rfl
  · cases a.toModel.unpack <;> rfl

theorem isNaN_mul (h : a.isNaN = true ∨ b.isNaN = true) : (a * b).isNaN = true := by
  refine isNaN_pack ?_
  rcases h with h | h <;> rw [isNaN_iff.mp h]
  · rfl
  · cases a.toModel.unpack <;> rfl

theorem isNaN_div (h : a.isNaN = true ∨ b.isNaN = true) : (a / b).isNaN = true := by
  refine isNaN_pack ?_
  rcases h with h | h <;> rw [isNaN_iff.mp h]
  · rfl
  · cases a.toModel.unpack <;> rfl

/-- A sum with NaN in it. -/
theorem isNaN_foldl_add {l : List Float32} : ∀ {a : Float32},
    (a.isNaN = true ∨ ∃ b ∈ l, b.isNaN = true) → (l.foldl (· + ·) a).isNaN = true := by
  induction l with
  | nil =>
    intro a h
    exact h.resolve_right fun ⟨b, hb, _⟩ => absurd hb List.not_mem_nil
  | cons b l ih =>
    intro a h
    refine ih ?_
    rcases h with h | ⟨c, hc, h⟩
    · exact Or.inl (isNaN_add (Or.inl h))
    · rcases List.mem_cons.mp hc with rfl | hc
      · exact Or.inl (isNaN_add (Or.inr h))
      · exact Or.inr ⟨c, hc, h⟩

end Lib.Binary32
