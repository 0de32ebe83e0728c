import Mathlib.Data.Finset.Sort
import LightGraph.Storage.Types

/-!
# The property index

`index/property/mod.rs`. For every label and property there may be a map from values to the nodes
that have them and a map from numbers to such nodes, and a predicate is evaluated on bitmaps alone.

A roaring bitmap is a finite set of `u32`. Of a float only its place in the order of
`OrderedFloat` is ever used. `BTreeMap::range` panics on bounds the wrong way round, and a panic
is `none` here.
-/

set_option autoImplicit false

namespace LightGraph

open Lib

abbrev RoaringBitmap := Finset UInt32

/-- In ascending order. -/
def RoaringBitmap.iter (bm : RoaringBitmap) : List UInt32 := bm.sort (· ≤ ·)

/-! ## Numbers in order -/

/-- The place of infinity among the doubles, which is its bit pattern, and the one behind it. -/
def infPlace : Int := 0x7FF0000000000000
def nanPlace : Int := 0x7FF0000000000001

/-- A double as `OrderedFloat` compares it: by its place in the order of the doubles, every NaN
above all else and the two zeros in one place. -/
structure OrderedFloat where
  place : Int
  le_place : -infPlace ≤ place
  place_le : place ≤ nanPlace

namespace OrderedFloat

theorem place_injective : Function.Injective place := by
  intro a b h
  cases a
  cases b
  cases h
  rfl

instance : LinearOrder OrderedFloat := LinearOrder.lift' place place_injective

/-- The wrapper around the float with these bits. -/
def ofBits (bits : UInt64) : OrderedFloat :=
  let magnitude : Int := bits.toNat % 2 ^ 63
  if h : magnitude ≤ infPlace then
    if bits.toNat < 2 ^ 63 then
      ⟨magnitude, by unfold infPlace; omega, by unfold nanPlace infPlace at *; omega⟩
    else
      ⟨-magnitude, by omega, by unfold nanPlace; omega⟩
  else ⟨nanPlace, by decide, le_refl _⟩

end OrderedFloat

/-- The bits of `n` rounded to a double, ties to even. -/
def roundToDouble (n : Nat) : Nat :=
  if n = 0 then 0
  else
    let exponent := Nat.log2 n
    -- the significand with its leading one, which runs into the exponent field
    let significand :=
      if exponent ≤ 52 then n * 2 ^ (52 - exponent)
      else
        let unit := 2 ^ (exponent - 52)
        let half := 2 ^ (exponent - 53)
        let rest := n % unit
        let down := n / unit
        if half < rest ∨ rest = half ∧ down % 2 = 1 then down + 1 else down
    (1022 + exponent) * 2 ^ 52 + significand

/-- `v as f64`. -/
def f64OfInt (v : Int64) : UInt64 :=
  UInt64.ofNat ((if v.toInt < 0 then 2 ^ 63 else 0) + roundToDouble v.toInt.natAbs)

def f64Max : UInt64 := 0x7FEFFFFFFFFFFFFF
def f64Min : UInt64 := 0xFFEFFFFFFFFFFFFF

/-- The bits of what `as_f64` returns. -/
def Value.asF64 : Value → UInt64
  | .int v => f64OfInt v
  | .float bits => bits
  | _ => 0

/-- A map in the order of its keys. -/
structure BTreeMap (κ ν : Type) [LinearOrder κ] where
  entries : List (κ × ν)
  sorted : entries.Pairwise fun e f => e.1 < f.1

/-- The entries from `lo` to `hi`, both included. -/
def BTreeMap.range {κ ν : Type} [LinearOrder κ] (m : BTreeMap κ ν) (lo hi : κ) :
    Option (List (κ × ν)) :=
  if hi < lo then none else some (m.entries.filter fun e => lo ≤ e.1 && e.1 ≤ hi)

/-! ## The index -/

/-- What a value is looked up as. -/
inductive ValueWrapper
  | null
  | bool (b : UInt8)
  | int (v : Int64)
  | float (f : OrderedFloat)
  | string (s : String)
  deriving DecidableEq

def ValueWrapper.ofValue : Value → ValueWrapper
  | .null => .null
  | .bool b => .bool (if b then 1 else 0)
  | .int v => .int v
  | .float bits => .float (OrderedFloat.ofBits bits)
  | .string s => .string s
  -- lists and vectors are not indexed
  | .list _ => .null
  | .vector _ => .null

abbrev LabelProp := String × String

structure PropertyIndex where
  /-- only ever looked up in, so the order of its keys is left out -/
  eqIndexes : FiniteMap LabelProp (FiniteMap ValueWrapper RoaringBitmap)
  rangeIndexes : FiniteMap LabelProp (BTreeMap OrderedFloat RoaringBitmap)

inductive Predicate
  | eq (label prop : String) (val : Value)
  | gt (label prop : String) (val : Value)
  | gte (label prop : String) (val : Value)
  | lt (label prop : String) (val : Value)
  | lte (label prop : String) (val : Value)
  | isIn (label prop : String) (vals : List Value)
  | and (p q : Predicate)
  | or (p q : Predicate)
  | not (p : Predicate)

namespace PropertyIndex

def new : PropertyIndex := { eqIndexes := ∅, rangeIndexes := ∅ }

/-- The nodes filed under a value. -/
def evaluateEq (ix : PropertyIndex) (label prop : String) (val : Value) : RoaringBitmap :=
  match ix.eqIndexes.get (label, prop) with
  | none => ∅
  | some idx =>
    match idx.get (ValueWrapper.ofValue val) with
    | none => ∅
    | some bm => bm

def rangeScan (ix : PropertyIndex) (label prop : String) (lo hi : UInt64) :
    Option RoaringBitmap :=
  match ix.rangeIndexes.get (label, prop) with
  | none => some ∅
  | some idx =>
    match idx.range (OrderedFloat.ofBits lo) (OrderedFloat.ofBits hi) with
    | none => none
    | some entries => some (entries.foldl (fun acc e => acc ∪ e.2) ∅)

/-- The bitmap of a predicate. -/
def evaluate (ix : PropertyIndex) : Predicate → Option RoaringBitmap
  | .eq label prop val => some (ix.evaluateEq label prop val)
  -- the strict comparisons scan what the others scan
  | .gt label prop val => ix.rangeScan label prop val.asF64 f64Max
  | .gte label prop val => ix.rangeScan label prop val.asF64 f64Max
  | .lt label prop val => ix.rangeScan label prop f64Min val.asF64
  | .lte label prop val => ix.rangeScan label prop f64Min val.asF64
  | .isIn label prop vals =>
    some ((vals.map (ix.evaluateEq label prop)).foldl (fun a b => a ∪ b) ∅)
  | .and p q =>
    match ix.evaluate p, ix.evaluate q with
    | some a, some b => some (a ∩ b)
    | _, _ => none
  | .or p q =>
    match ix.evaluate p, ix.evaluate q with
    | some a, some b => some (a ∪ b)
    | _, _ => none
  -- a complement would need all nodes
  | .not _ => some ∅

end PropertyIndex
end LightGraph
