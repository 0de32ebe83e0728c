import Mathlib.Algebra.Order.Field.Basic
import LightGraph.Lib.Binary32

/-!
# Scores

`index/fulltext/scorer.rs`, and what the engine does with scores besides. A score is an `f32`. What
is asked of it is a class, `Score`, with `f32` itself as an instance, rounding, infinities and NaN
included, and every ordered field as another, where nothing is rounded and `x / 0` is `0`.

Scores are sorted by `partial_cmp` with an `unwrap`: where two are compared that have no order the
sort panics, which is `none` here.
-/

set_option autoImplicit false

namespace LightGraph

open Lib

/-- What is done with scores. -/
class Score (α : Type) extends Zero α, One α, Add α, Sub α, Mul α, Div α where
  /-- `as f32` -/
  ofNat : Nat → α
  /-- `as f64`, and that `as f32` -/
  ofNatAsF64 : Nat → α
  partialCmp : α → α → Option Ordering

instance (priority := low) Score.ofField {α : Type} [Field α] [LinearOrder α] : Score α where
  ofNat n := n
  ofNatAsF64 n := n
  partialCmp a b := some (compare a b)

instance : Score Float32 where
  ofNat := Binary32.ofNat
  ofNatAsF64 n := Binary32.ofDouble (Float.Model.ofNat n)
  partialCmp := Binary32.partialCmp

namespace Score
variable {α : Type} [Score α]

/-- A decimal of the source. -/
def fraction (n d : Nat) : α := ofNat n / ofNat d

protected def Lt (a b : α) : Prop := partialCmp a b = some .lt

instance (a b : α) : Decidable (Score.Lt a b) := inferInstanceAs (Decidable (_ = _))

/-- `a` is no greater than `b`, and both are numbers. -/
protected def Le (a b : α) : Prop := Precedes partialCmp a b

/-- Not a number: not even equal to itself. -/
def IsNan (a : α) : Prop := partialCmp a a = none

instance (a : α) : Decidable (IsNan a) := inferInstanceAs (Decidable (_ = _))

end Score

/-- What scores can be relied on for. -/
class LawfulScore (α : Type) [Score α] : Prop where
  partialCmp_by_key : ByKey (Score.partialCmp : α → α → Option Ordering)
  pos_zero_add_mul_one : ∀ {a : α}, Score.Lt 0 a → Score.Lt 0 (0 + a * 1)

instance (priority := low) LawfulScore.ofField {α : Type} [Field α] [LinearOrder α] :
    LawfulScore α where
  partialCmp_by_key := ⟨α, inferInstance, some, fun _ _ => rfl⟩
  pos_zero_add_mul_one {a} h := by
    have heq : (0 : α) + a * 1 = a := by rw [mul_one, zero_add]
    exact heq.symm ▸ h

instance : LawfulScore Float32 where
  partialCmp_by_key := ⟨_, inferInstance, Binary32.key, Binary32.partialCmp_by_key⟩
  pos_zero_add_mul_one := Binary32.pos_zero_add_mul_one

/-- A stable sort, the highest score first. -/
def sortDescending {α β : Type} [Score β] (score : α → β) (l : List α) : Option (List α) :=
  sortBy (fun a b => Score.partialCmp (score b) (score a)) l

def bm25Score {α : Type} [Score α] (ln : α → α) (tf df docLen avgDocLen totalDocs : α) : α :=
  let k1 : α := Score.fraction 12 10
  let b : α := Score.fraction 75 100
  let idf := ln ((totalDocs - df + Score.fraction 5 10) / (df + Score.fraction 5 10) + 1)
  let tfNorm := (tf * (k1 + 1)) / (tf + k1 * (1 - b + b * docLen / avgDocLen))
  idf * tfNorm

end LightGraph
