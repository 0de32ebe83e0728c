import LightGraph.Lib.LittleEndian

/-!
# UTF-8 text in a byte string

A string written into a binary record is its UTF-8 bytes; a reader that must not fail on other
bytes puts U+FFFD in the place of each maximal ill-formed piece. `fromUtf8Lossy` is that
reader. On the bytes of a string it is the identity, and that is the only fact about it a
round trip needs.
-/

set_option autoImplicit false

namespace Lib

def utf8Bytes (s : String) : Bytes := s.toList.flatMap String.utf8EncodeChar

/-- The second byte of a three- or four-byte sequence that starts with `b`. -/
def utf8SecondOk (b c : UInt8) : Bool :=
  (b == 0xE0 && 0xA0 ≤ c && c ≤ 0xBF) || (0xE1 ≤ b && b ≤ 0xEC && 0x80 ≤ c && c ≤ 0xBF) ||
  (b == 0xED && 0x80 ≤ c && c ≤ 0x9F) || (0xEE ≤ b && b ≤ 0xEF && 0x80 ≤ c && c ≤ 0xBF) ||
  (b == 0xF0 && 0x90 ≤ c && c ≤ 0xBF) || (0xF1 ≤ b && b ≤ 0xF3 && 0x80 ≤ c && c ≤ 0xBF) ||
  (b == 0xF4 && 0x80 ≤ c && c ≤ 0x8F)

/-- How many bytes of an ill-formed sequence one replacement character stands for: as far as
the sequence could still have been the start of a character. -/
def utf8InvalidLen : Bytes → Nat
  | b :: c :: d :: _ =>
    if utf8SecondOk b c then if 0xF0 ≤ b && 0x80 ≤ d && d ≤ 0xBF then 3 else 2 else 1
  | [b, c] => if utf8SecondOk b c then 2 else 1
  | _ => 1

def fromUtf8LossyFuel : Nat → Bytes → List Char
  | 0, _ => []
  | _, [] => []
  | fuel + 1, bs =>
    match bs.toByteArray.utf8DecodeChar? 0 with
    | some c => c :: fromUtf8LossyFuel fuel (bs.drop c.utf8Size)
    | none => '\uFFFD' :: fromUtf8LossyFuel fuel (bs.drop (utf8InvalidLen bs))

/-- `String::from_utf8_lossy`. -/
def fromUtf8Lossy (bs : Bytes) : String := String.ofList (fromUtf8LossyFuel bs.length bs)

theorem fromUtf8LossyFuel_utf8Bytes (cs : List Char) : ∀ fuel : Nat,
    (cs.flatMap String.utf8EncodeChar).length ≤ fuel →
    fromUtf8LossyFuel fuel (cs.flatMap String.utf8EncodeChar) = cs := by
  induction cs with
  | nil =>
    intro fuel _
    cases fuel <;> rfl
  | cons c cs ih =>
    intro fuel hfuel
    have hpos : 0 < c.utf8Size := c.utf8Size_pos
    have hdec : ((c :: cs).flatMap String.utf8EncodeChar).toByteArray.utf8DecodeChar? 0
        = some c := by
      rw [List.flatMap_cons, List.toByteArray_append]
      exact ByteArray.utf8DecodeChar?_utf8EncodeChar_append
    have hdrop : ((c :: cs).flatMap String.utf8EncodeChar).drop c.utf8Size
        = cs.flatMap String.utf8EncodeChar := by
      rw [List.flatMap_cons]
      exact List.drop_left' (String.length_utf8EncodeChar c)
    rw [List.flatMap_cons, List.length_append, String.length_utf8EncodeChar] at hfuel
    cases fuel with
    | zero => omega
    | succ fuel =>
      cases hbs : (c :: cs).flatMap String.utf8EncodeChar with
      | nil =>
        have := congrArg List.length hbs
        rw [List.flatMap_cons, List.length_append, String.length_utf8EncodeChar] at this
        simp at this
        omega
      | cons b bs =>
        rw [fromUtf8LossyFuel, ← hbs, hdec]
        · simp only [hdrop]
          rw [ih fuel (by omega)]
        · simp

/-- Text that was written is read back. -/
theorem fromUtf8Lossy_utf8Bytes (s : String) : fromUtf8Lossy (utf8Bytes s) = s := by
  rw [fromUtf8Lossy, utf8Bytes, fromUtf8LossyFuel_utf8Bytes _ _ (Nat.le_refl _),
    String.ofList_toList]

end Lib
