import LightGraph.Lib.LittleEndian

/-!
# A buffered writer over a file that can fail

What a program gives to a buffered writer is either in the file or in the writer's buffer, in the
order it was given: the line of bytes `file ++ buf`. A `write` to the file can fail at any byte,
and the writer keeps in its buffer what a failed `flush` has not written, so a flush never loses
anything. `writeAll` can: bytes that do not fit the buffer are not taken into it when room cannot
be made for them, and bytes that are no less than the buffer's capacity go to the file directly.
Where it fails, the line is shorter than what was given.
-/

set_option autoImplicit false

namespace Lib

/-- What a series of `write` calls puts into the file: everything (`none`), or an error behind some
of the bytes. There is no call where there is nothing to write. -/
def writeOut (data : Bytes) : Option Nat → Bytes × Bool
  | none => (data, true)
  | some n => if data.isEmpty then ([], true) else (data.dropLast.take n, false)

theorem writeOut_cases (data : Bytes) (fault : Option Nat) :
    writeOut data fault = (data, true) ∨
    ∃ done, writeOut data fault = (done, false) ∧ done <+: data ∧ done.length < data.length := by
  cases fault with
  | none => exact Or.inl rfl
  | some n =>
    unfold writeOut
    cases data with
    | nil => exact Or.inl rfl
    | cons b bs =>
      right
      refine ⟨_, rfl, (List.take_prefix _ _).trans (List.dropLast_prefix _), ?_⟩
      refine Nat.lt_of_le_of_lt (List.length_take_le' _ _) ?_
      rw [List.length_dropLast]
      exact Nat.lt_succ_self _

structure BufWriter where
  file : Bytes
  buf : Bytes
  capacity : Nat

namespace BufWriter

/-- Everything that was given, as far as it was not lost. -/
def line (w : BufWriter) : Bytes := w.file ++ w.buf

def spareCapacity (w : BufWriter) : Nat := w.capacity - w.buf.length

/-- Write the buffer out; what was not written stays in it. -/
def flushBuf (w : BufWriter) (fault : Option Nat) : BufWriter × Bool :=
  let (done, ok) := writeOut w.buf fault
  ({ w with file := w.file ++ done, buf := w.buf.drop done.length }, ok)

/-- `write_all` of bytes that do not fit: room is made first, and what is no less than the capacity
goes to the file. -/
def writeAllCold (w : BufWriter) (data : Bytes) (room direct : Option Nat) : BufWriter × Bool :=
  let (w, ok) := if data.length > w.spareCapacity then w.flushBuf room else (w, true)
  if !ok then (w, false)
  else if data.length ≥ w.capacity then
    let (done, ok) := writeOut data direct
    ({ w with file := w.file ++ done }, ok)
  else ({ w with buf := w.buf ++ data }, true)

def writeAll (w : BufWriter) (data : Bytes) (room direct : Option Nat) : BufWriter × Bool :=
  if data.length < w.spareCapacity then ({ w with buf := w.buf ++ data }, true)
  else w.writeAllCold data room direct

/-! ## Flushing -/

/-- A flush moves bytes from the buffer to the file, all of them if it succeeds. -/
structure Flushes (w w' : BufWriter) (ok : Bool) : Prop where
  line : w'.line = w.line
  grows : w.file <+: w'.file
  capacity : w'.capacity = w.capacity
  done : ok = true → w'.buf = []
  left : ok = false → w'.buf ≠ []

theorem flushBuf_flushes (w : BufWriter) (fault : Option Nat) :
    w.Flushes (w.flushBuf fault).1 (w.flushBuf fault).2 := by
  unfold flushBuf
  rcases writeOut_cases w.buf fault with hall | ⟨done, hsome, hpre, hlt⟩
  · simp only [hall]
    refine ⟨?_, List.prefix_append _ _, rfl, fun _ => List.drop_length, fun h => absurd h (by simp)⟩
    rw [line, line, List.drop_length, List.append_nil]
  · simp only [hsome]
    obtain ⟨rest, hrest⟩ := hpre
    refine ⟨?_, List.prefix_append _ _, rfl, fun h => absurd h (by simp), fun _ => ?_⟩
    · rw [line, line, ← hrest, List.drop_left, List.append_assoc]
    · exact fun hnil => Nat.not_le_of_lt hlt (List.drop_eq_nil_iff.mp hnil)

theorem flushBuf_none (w : BufWriter) :
    w.flushBuf none = ({ w with file := w.line, buf := [] }, true) := by
  simp only [flushBuf, writeOut, List.drop_length, line]

/-! ## Writing -/

/-- Bytes given to the writer come behind all it was given before, or they are not all there. -/
structure Writes (w : BufWriter) (data : Bytes) (w' : BufWriter) (ok : Bool) : Prop where
  grows : w.file <+: w'.file
  capacity : w'.capacity = w.capacity
  taken : ok = true → w'.line = w.line ++ data
  lost : ok = false → w'.line.length < (w.line ++ data).length

/-- Straight to the file, past an empty buffer. -/
theorem writes_direct {w w₁ : BufWriter} {data : Bytes} (hline : w₁.line = w.line)
    (hgrows : w.file <+: w₁.file) (hcap : w₁.capacity = w.capacity) (hbuf : w₁.buf = [])
    (direct : Option Nat) :
    w.Writes data { w₁ with file := w₁.file ++ (writeOut data direct).1 }
      (writeOut data direct).2 := by
  have hfile : w₁.file = w.line := by
    rw [← hline, line, hbuf, List.append_nil]
  rcases writeOut_cases data direct with hall | ⟨done, hsome, -, hlt⟩
  · rw [hall]
    refine ⟨hgrows.trans (List.prefix_append _ _), hcap, fun _ => ?_, fun h => absurd h (by simp)⟩
    rw [line, hbuf, List.append_nil, hfile]
  · rw [hsome]
    refine ⟨hgrows.trans (List.prefix_append _ _), hcap, fun h => absurd h (by simp), fun _ => ?_⟩
    rw [line, hbuf, List.append_nil, hfile, List.length_append, List.length_append]
    exact Nat.add_lt_add_left hlt _

theorem writeAllCold_writes (w : BufWriter) {data : Bytes} (hdata : data ≠ [])
    (room direct : Option Nat) :
    w.Writes data (w.writeAllCold data room direct).1 (w.writeAllCold data room direct).2 := by
  have hpos : 0 < data.length := List.length_pos_iff.mpr hdata
  unfold writeAllCold
  by_cases hroom : data.length > w.spareCapacity
  · simp only [if_pos hroom]
    have hflush := w.flushBuf_flushes room
    cases hok : (w.flushBuf room).2 with
    | false =>
      -- what was to be written is not taken into the buffer
      refine ⟨hflush.grows, hflush.capacity, fun h => absurd h (by simp), fun _ => ?_⟩
      show (w.flushBuf room).1.line.length < _
      rw [hflush.line, List.length_append]
      exact Nat.lt_add_of_pos_right hpos
    | true =>
      simp only [Bool.not_true, Bool.false_eq_true, if_false]
      split
      · exact writes_direct hflush.line hflush.grows hflush.capacity (hflush.done hok) direct
      · refine ⟨hflush.grows, hflush.capacity, fun _ => ?_, fun h => absurd h (by simp)⟩
        rw [← hflush.line, line, line, List.append_assoc]
  · simp only [if_neg hroom, Bool.not_true, Bool.false_eq_true, if_false]
    split
    · rename_i hcap
      -- as many bytes as the capacity fit an empty buffer only
      have hbuf : w.buf = [] := by
        unfold spareCapacity at hroom
        exact List.length_eq_zero_iff.mp (by omega)
      exact writes_direct rfl List.prefix_rfl rfl hbuf direct
    · refine ⟨List.prefix_rfl, rfl, fun _ => ?_, fun h => absurd h (by simp)⟩
      rw [line, line, List.append_assoc]

/-- **Writing.** -/
theorem writeAll_writes (w : BufWriter) {data : Bytes} (hdata : data ≠ [])
    (room direct : Option Nat) :
    w.Writes data (w.writeAll data room direct).1 (w.writeAll data room direct).2 := by
  unfold writeAll
  split
  · refine ⟨List.prefix_rfl, rfl, fun _ => ?_, fun h => absurd h (by simp)⟩
    rw [line, line, List.append_assoc]
  · exact w.writeAllCold_writes hdata room direct

theorem writeOut_nil (fault : Option Nat) : writeOut [] fault = ([], true) := by
  cases fault <;> rfl

/-- Nothing to write is written. -/
theorem writeAll_nil (w : BufWriter) (room direct : Option Nat) :
    w.writeAll [] room direct = (w, true) := by
  have hfile : { w with file := w.file ++ [] } = w := by rw [List.append_nil]
  have hbuf : { w with buf := w.buf ++ [] } = w := by rw [List.append_nil]
  unfold writeAll writeAllCold
  split
  · rw [hbuf]
  · simp only [List.length_nil, Nat.not_lt_zero, gt_iff_lt, if_false, Bool.not_true,
      Bool.false_eq_true, writeOut_nil, hfile, hbuf, ite_self]

/-- What a `write_all` that succeeds has been given comes behind what was given before. -/
theorem writeAll_line {w : BufWriter} {data : Bytes} {room direct : Option Nat}
    (h : (w.writeAll data room direct).2 = true) :
    (w.writeAll data room direct).1.line = w.line ++ data := by
  by_cases hdata : data = []
  · rw [hdata, writeAll_nil, List.append_nil]
  · exact (w.writeAll_writes hdata room direct).taken h

/-- Without faults nothing fails. -/
theorem writeAll_none (w : BufWriter) (data : Bytes) : (w.writeAll data none none).2 = true := by
  unfold writeAll
  split
  · rfl
  · have hdirect : ∀ w : BufWriter, (if data.length ≥ w.capacity then
        ({ w with file := w.file ++ (writeOut data none).1 }, (writeOut data none).2)
        else ({ w with buf := w.buf ++ data }, true)).2 = true := by
      intro w
      split <;> rfl
    unfold writeAllCold
    by_cases hroom : data.length > w.spareCapacity
    · simp only [if_pos hroom, flushBuf_none, Bool.not_true, Bool.false_eq_true, if_false]
      exact hdirect { w with file := w.line, buf := [] }
    · simp only [if_neg hroom, Bool.not_true, Bool.false_eq_true, if_false]
      exact hdirect w

end BufWriter
end Lib
