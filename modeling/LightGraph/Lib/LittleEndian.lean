import Mathlib.Tactic.Ring
import Mathlib.Tactic.NormNum

/-!
# Little-endian numbers

The one encoder every fixed-width field of a binary log is built from: a natural number
becomes exactly `w` bytes, least significant first, and bits above `8 * w` are dropped.
That is what a machine does when it casts a length to a narrow word and writes the word out,
so the round trip holds **modulo** `256 ^ w` and is exact only below it.
-/

set_option autoImplicit false

namespace Lib

abbrev Bytes := List UInt8

/-- The `w` little-endian bytes of `n`. -/
def leBytes : Nat → Nat → Bytes
  | 0, _ => []
  | w + 1, n => UInt8.ofNat n :: leBytes w (n / 256)

/-- The number whose little-endian bytes are given. -/
def leNat : Bytes → Nat
  | [] => 0
  | b :: bs => b.toNat + 256 * leNat bs

@[simp] theorem length_leBytes (w n : Nat) : (leBytes w n).length = w := by
  induction w generalizing n with
  | zero => rfl
  | succ w ih => simp [leBytes, ih]

theorem leNat_leBytes (w n : Nat) : leNat (leBytes w n) = n % 256 ^ w := by
  induction w generalizing n with
  | zero => simp [leBytes, leNat, Nat.mod_one]
  | succ w ih =>
    have hw : 256 ^ (w + 1) = 256 * 256 ^ w := pow_succ' 256 w
    simp only [leBytes, leNat, UInt8.toNat_ofNat', ih, hw, Nat.mod_mul]

theorem leNat_leBytes_of_lt {w n : Nat} (h : n < 256 ^ w) : leNat (leBytes w n) = n := by
  rw [leNat_leBytes, Nat.mod_eq_of_lt h]

theorem leNat_lt (bs : Bytes) : leNat bs < 256 ^ bs.length := by
  induction bs with
  | nil => simp [leNat]
  | cons b bs ih =>
    have hb : b.toNat < 256 := b.toNat_lt
    simp only [leNat, List.length_cons, pow_succ]
    omega

/-- Reading a field and writing it back at its own width changes nothing. -/
theorem leBytes_leNat (bs : Bytes) : leBytes bs.length (leNat bs) = bs := by
  induction bs with
  | nil => rfl
  | cons b bs ih =>
    have hb : b.toNat < 256 := b.toNat_lt
    have hdiv : (b.toNat + 256 * leNat bs) / 256 = leNat bs := by omega
    have hmod : UInt8.ofNat (b.toNat + 256 * leNat bs) = b := by
      apply UInt8.toNat_inj.mp
      rw [UInt8.toNat_ofNat']
      omega
    simp only [leNat, List.length_cons, leBytes, hdiv, hmod, ih]

end Lib
