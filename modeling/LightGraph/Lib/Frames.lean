import LightGraph.Lib.LittleEndian

/-!
# Length-prefixed frames

An append-only file is a sequence of frames: a fixed-width little-endian length field and a
body whose size the field determines. This file says what a *reader* of such a file makes of
an arbitrary byte string — in particular of one that a crash has cut short — and it names
neither a program nor the meaning of a body.

The reader below is the loop every such program has: stop cleanly when the next length field
is not there in full, fail when the field is refused, fail when the body is cut. Three facts
about it carry everything proved over it:

* `read_encode_append` — a frame that fits its length field is read back, and the reader goes
  on right behind it;
* `read_encodeAll_append` — so is any list of them;
* `read_take` — **what a cut file reads as**: the whole frames, and an error behind them unless
  the torn rest is shorter than a length field.
-/

set_option autoImplicit false

namespace Lib

/-- `field n` is the number a writer puts in front of a body of `n` bytes; `bodySize m` is the
number of bytes a reader expects behind a length field that reads `m`, `none` when it refuses
the field. -/
structure FrameFormat where
  width : Nat
  field : Nat → Nat
  bodySize : Nat → Option Nat

/-- How reading came to its end. -/
inductive Ending
  /-- fewer bytes than a length field were left -/
  | clean
  /-- a length field was there, its body was not there in full -/
  | short
  /-- a length field was refused -/
  | refused
  deriving DecidableEq, Repr

structure Scan where
  bodies : List Bytes
  ending : Ending
  deriving DecidableEq, Repr

/-! ## Cutting a sequence of sized items -/

section Cut
variable {α β : Type} (size : α → Nat)

/-- The items that lie wholly inside the first `k` bytes of the sequence. -/
def whole : Nat → List α → List α
  | _, [] => []
  | k, a :: as => if size a ≤ k then a :: whole (k - size a) as else []

/-- How many of the first `k` bytes lie behind the last whole item. -/
def torn : Nat → List α → Nat
  | _, [] => 0
  | k, a :: as => if size a ≤ k then torn (k - size a) as else k

theorem whole_isPrefix (k : Nat) (as : List α) : whole size k as <+: as := by
  induction as generalizing k with
  | nil => exact List.prefix_rfl
  | cons a as ih =>
    simp only [whole]
    split
    · exact (List.prefix_cons_inj a).mpr (ih _)
    · exact List.nil_prefix

theorem whole_map (size' : β → Nat) (f : α → β) (h : ∀ a, size' (f a) = size a) (k : Nat)
    (as : List α) : whole size' k (as.map f) = (whole size k as).map f := by
  induction as generalizing k with
  | nil => rfl
  | cons a as ih =>
    simp only [List.map_cons, whole, h]
    split
    · rw [List.map_cons, ih]
    · rfl

theorem torn_map (size' : β → Nat) (f : α → β) (h : ∀ a, size' (f a) = size a) (k : Nat)
    (as : List α) : torn size' k (as.map f) = torn size k as := by
  induction as generalizing k with
  | nil => rfl
  | cons a as ih =>
    simp only [List.map_cons, torn, h]
    split
    · exact ih _
    · rfl

end Cut

namespace FrameFormat

variable (F : FrameFormat)

def encode (body : Bytes) : Bytes := leBytes F.width (F.field body.length) ++ body

/-- The bytes a body takes in the file. -/
def size (body : Bytes) : Nat := F.width + body.length

def encodeAll (bodies : List Bytes) : Bytes := bodies.flatMap F.encode

/-- The reading loop. Each round takes at least a length field, so the length of the input is
enough fuel. -/
def readFuel : Nat → Bytes → Scan
  | 0, _ => ⟨[], .clean⟩
  | fuel + 1, bs =>
    if bs.length < F.width then ⟨[], .clean⟩
    else
      match F.bodySize (leNat (bs.take F.width)) with
      | none => ⟨[], .refused⟩
      | some n =>
        let rest := bs.drop F.width
        if rest.length < n then ⟨[], .short⟩
        else
          let later := readFuel fuel (rest.drop n)
          ⟨rest.take n :: later.bodies, later.ending⟩

def read (bs : Bytes) : Scan := F.readFuel bs.length bs

/-- The reader takes the body for what the writer put there: the length field, cut to its
width, still says the size of the body. -/
def Fits (body : Bytes) : Prop :=
  F.bodySize (F.field body.length % 256 ^ F.width) = some body.length

instance (body : Bytes) : Decidable (F.Fits body) :=
  inferInstanceAs (Decidable (_ = _))

/-! ## Fuel -/

theorem readFuel_mono (hw : 0 < F.width) : ∀ (fuel : Nat) (bs : Bytes), bs.length ≤ fuel →
    F.readFuel fuel bs = F.readFuel (fuel + 1) bs := by
  intro fuel
  induction fuel with
  | zero =>
    intro bs h
    have hlt : bs.length < F.width := by omega
    simp [readFuel, hlt]
  | succ fuel ih =>
    intro bs h
    rw [readFuel, readFuel]
    by_cases hlt : bs.length < F.width
    · simp [hlt]
    · simp only [hlt, if_false]
      cases F.bodySize (leNat (bs.take F.width)) with
      | none => rfl
      | some n =>
        have hdrop : ((bs.drop F.width).drop n).length ≤ fuel := by
          simp only [List.length_drop]
          omega
        simp only [ih _ hdrop]

theorem readFuel_eq_read (hw : 0 < F.width) {fuel : Nat} {bs : Bytes} (h : bs.length ≤ fuel) :
    F.readFuel fuel bs = F.read bs := by
  induction fuel with
  | zero =>
    have : bs.length = 0 := by omega
    rw [read, this]
  | succ fuel ih =>
    by_cases hle : bs.length ≤ fuel
    · rw [← F.readFuel_mono hw fuel bs hle, ih hle]
    · have : bs.length = fuel + 1 := by omega
      rw [read, this]

/-- The loop without its fuel. -/
theorem read_eq (hw : 0 < F.width) (bs : Bytes) :
    F.read bs =
      if bs.length < F.width then ⟨[], .clean⟩
      else
        match F.bodySize (leNat (bs.take F.width)) with
        | none => ⟨[], .refused⟩
        | some n =>
          if (bs.drop F.width).length < n then ⟨[], .short⟩
          else ⟨(bs.drop F.width).take n :: (F.read ((bs.drop F.width).drop n)).bodies,
                (F.read ((bs.drop F.width).drop n)).ending⟩ := by
  rw [← F.readFuel_eq_read hw (Nat.le_succ bs.length), readFuel]
  by_cases hlt : bs.length < F.width
  · simp [hlt]
  · simp only [hlt, if_false]
    cases F.bodySize (leNat (bs.take F.width)) with
    | none => rfl
    | some n =>
      have hdrop : ((bs.drop F.width).drop n).length ≤ bs.length := by
        simp only [List.length_drop]
        omega
      simp only [F.readFuel_eq_read hw hdrop]

/-! ## Reading what was written -/

@[simp] theorem length_encode (body : Bytes) :
    (F.encode body).length = F.size body := by
  simp [encode, size]

@[simp] theorem encodeAll_nil : F.encodeAll [] = [] := rfl

@[simp] theorem encodeAll_cons (body : Bytes) (bodies : List Bytes) :
    F.encodeAll (body :: bodies) = F.encode body ++ F.encodeAll bodies := by
  simp [encodeAll]

@[simp] theorem encodeAll_append (as bs : List Bytes) :
    F.encodeAll (as ++ bs) = F.encodeAll as ++ F.encodeAll bs := by
  simp [encodeAll]

theorem take_width_encode (body rest : Bytes) :
    (F.encode body ++ rest).take F.width = leBytes F.width (F.field body.length) := by
  simp [encode, List.append_assoc]

theorem drop_width_encode (body rest : Bytes) :
    (F.encode body ++ rest).drop F.width = body ++ rest := by
  simp [encode, List.append_assoc]

/-- One round on a frame: the reader sees the length field, cut to its width. -/
theorem read_encode_eq (hw : 0 < F.width) (body rest : Bytes) :
    F.read (F.encode body ++ rest) =
      match F.bodySize (F.field body.length % 256 ^ F.width) with
      | none => ⟨[], .refused⟩
      | some n =>
        if (body ++ rest).length < n then ⟨[], .short⟩
        else ⟨(body ++ rest).take n :: (F.read ((body ++ rest).drop n)).bodies,
              (F.read ((body ++ rest).drop n)).ending⟩ := by
  have hge : ¬ (F.encode body ++ rest).length < F.width := by
    simp only [List.length_append, length_encode, size]
    omega
  rw [F.read_eq hw, if_neg hge, take_width_encode, drop_width_encode, leNat_leBytes]

theorem read_encode_append (hw : 0 < F.width) {body : Bytes} (hfit : F.Fits body)
    (rest : Bytes) :
    F.read (F.encode body ++ rest)
      = ⟨body :: (F.read rest).bodies, (F.read rest).ending⟩ := by
  have hlen : ¬ (body ++ rest).length < body.length := by simp
  unfold Fits at hfit
  rw [F.read_encode_eq hw, hfit]
  simp only [if_neg hlen, List.take_left, List.drop_left]

theorem read_encodeAll_append (hw : 0 < F.width) {bodies : List Bytes}
    (hfit : ∀ b ∈ bodies, F.Fits b) (rest : Bytes) :
    F.read (F.encodeAll bodies ++ rest)
      = ⟨bodies ++ (F.read rest).bodies, (F.read rest).ending⟩ := by
  induction bodies with
  | nil => simp
  | cons body bodies ih =>
    have hrest := ih fun b hb => hfit b (List.mem_cons_of_mem _ hb)
    rw [encodeAll_cons, List.append_assoc,
      F.read_encode_append hw (hfit body List.mem_cons_self), hrest]
    simp

/-- Too few bytes for a length field: the clean end. -/
theorem read_of_lt_width (hw : 0 < F.width) {bs : Bytes} (h : bs.length < F.width) :
    F.read bs = ⟨[], .clean⟩ := by
  rw [F.read_eq hw, if_pos h]

theorem read_encodeAll (hw : 0 < F.width) {bodies : List Bytes}
    (hfit : ∀ b ∈ bodies, F.Fits b) : F.read (F.encodeAll bodies) = ⟨bodies, .clean⟩ := by
  have h := F.read_encodeAll_append hw hfit []
  rw [List.append_nil, F.read_of_lt_width hw (show ([] : Bytes).length < F.width from hw)] at h
  simpa using h

/-! ## Reading what a crash has left -/

theorem take_encodeAll_of_le {k : Nat} {body : Bytes} {bodies : List Bytes}
    (h : F.size body ≤ k) :
    (F.encodeAll (body :: bodies)).take k
      = F.encode body ++ (F.encodeAll bodies).take (k - F.size body) := by
  rw [encodeAll_cons, List.take_append, length_encode,
    List.take_of_length_le (by rw [length_encode]; exact h)]

theorem take_encodeAll_of_lt {k : Nat} {body : Bytes} {bodies : List Bytes}
    (h : k < F.size body) :
    (F.encodeAll (body :: bodies)).take k = (F.encode body).take k := by
  rw [encodeAll_cons]
  exact List.take_append_of_le_length (by rw [length_encode]; omega)

/-- A cut file is its whole frames followed by `torn` further bytes. -/
theorem take_encodeAll (k : Nat) (bodies : List Bytes) :
    ∃ tail : Bytes, tail.length = torn F.size k bodies ∧
      (F.encodeAll bodies).take k = F.encodeAll (whole F.size k bodies) ++ tail := by
  induction bodies generalizing k with
  | nil => exact ⟨[], by simp [torn], by simp [whole]⟩
  | cons body bodies ih =>
    by_cases hle : F.size body ≤ k
    · obtain ⟨tail, hlen, htake⟩ := ih (k - F.size body)
      refine ⟨tail, by simp only [torn, if_pos hle, hlen], ?_⟩
      rw [F.take_encodeAll_of_le hle, htake]
      simp only [whole, if_pos hle, encodeAll_cons, List.append_assoc]
    · refine ⟨(F.encode body).take k, ?_, ?_⟩
      · simp only [torn, if_neg hle, List.length_take, length_encode]
        omega
      · simp only [whole, if_neg hle, encodeAll_nil, List.nil_append]
        exact F.take_encodeAll_of_lt (by omega)

/-- A piece of a frame that does not fit its own length field, or is not there in full, never
reads as a clean end with nothing delivered — unless not even the length field is there. -/
theorem read_ne_clean_nil (hw : 0 < F.width) {bs : Bytes} (h : F.width ≤ bs.length) :
    F.read bs ≠ ⟨[], .clean⟩ := by
  rw [F.read_eq hw, if_neg (by omega)]
  cases F.bodySize (leNat (bs.take F.width)) with
  | none => simp
  | some n =>
    dsimp only
    split <;> simp

/-- A cut inside a frame, behind its length field. -/
theorem read_cut_frame (hw : 0 < F.width) {body : Bytes} (hfit : F.Fits body) {k : Nat}
    (hlow : F.width ≤ k) (hhigh : k < F.size body) :
    F.read ((F.encode body).take k) = ⟨[], .short⟩ := by
  have hlen : ((F.encode body).take k).length = k := by
    rw [List.length_take, length_encode]
    omega
  have htake : ((F.encode body).take k).take F.width
      = leBytes F.width (F.field body.length) := by
    rw [List.take_take, Nat.min_eq_left hlow]
    exact List.take_left' (length_leBytes _ _)
  rw [F.read_eq hw, if_neg (by omega), htake, leNat_leBytes]
  unfold Fits at hfit
  rw [hfit]
  dsimp only
  rw [if_pos]
  rw [List.length_drop, hlen]
  unfold size at hhigh
  omega

/-- A cut file of frames that fit: the whole ones, and an error unless the rest is shorter than
a length field. -/
theorem read_take (hw : 0 < F.width) (k : Nat) {bodies : List Bytes}
    (hfit : ∀ b ∈ bodies, F.Fits b) :
    F.read ((F.encodeAll bodies).take k)
      = ⟨whole F.size k bodies, if torn F.size k bodies < F.width then .clean else .short⟩ := by
  induction bodies generalizing k with
  | nil =>
    rw [encodeAll_nil, List.take_nil, F.read_of_lt_width hw (by simpa using hw)]
    simp [whole, torn, hw]
  | cons body bodies ih =>
    have hrest := fun k => ih k fun b hb => hfit b (List.mem_cons_of_mem _ hb)
    by_cases hle : F.size body ≤ k
    · rw [F.take_encodeAll_of_le hle, F.read_encode_append hw (hfit body List.mem_cons_self),
        hrest]
      simp only [whole, torn, if_pos hle]
    · rw [F.take_encodeAll_of_lt (by omega)]
      simp only [whole, torn, if_neg hle]
      by_cases hk : k < F.width
      · rw [if_pos hk, F.read_of_lt_width hw]
        rw [List.length_take]
        omega
      · -- a length field is there, and its body is not
        rw [if_neg hk]
        exact F.read_cut_frame hw (hfit body List.mem_cons_self) (by omega) (by omega)

/-! ## What a clean end means -/

/-- A length field is determined by the size it announces. -/
def Canonical : Prop := ∀ m n, F.bodySize m = some n → F.field n = m

/-- A length field that is taken, and the body it announces, are a frame. -/
theorem split_frame (hc : F.Canonical) {bs : Bytes} {n : Nat} (hge : ¬ bs.length < F.width)
    (hsize : F.bodySize (leNat (bs.take F.width)) = some n)
    (hthere : ¬ (bs.drop F.width).length < n) :
    bs = F.encode ((bs.drop F.width).take n) ++ (bs.drop F.width).drop n ∧
      F.Fits ((bs.drop F.width).take n) := by
  have hwidth : (bs.take F.width).length = F.width := by
    rw [List.length_take]
    omega
  have hlen : ((bs.drop F.width).take n).length = n := by
    rw [List.length_take]
    omega
  have hfield : F.field ((bs.drop F.width).take n).length = leNat (bs.take F.width) := by
    rw [hlen]
    exact hc _ _ hsize
  have hhead : leBytes F.width (F.field ((bs.drop F.width).take n).length) = bs.take F.width := by
    rw [hfield]
    have := leBytes_leNat (bs.take F.width)
    rwa [hwidth] at this
  have hmod : F.field ((bs.drop F.width).take n).length % 256 ^ F.width
      = F.field ((bs.drop F.width).take n).length := by
    rw [hfield]
    have := leNat_lt (bs.take F.width)
    rw [hwidth] at this
    exact Nat.mod_eq_of_lt this
  constructor
  · rw [encode, hhead, List.append_assoc, List.take_append_drop, List.take_append_drop]
  · rw [Fits, hmod, hfield, hsize, hlen]

/-- **What was read was there**: any bytes are the frames they read as, and a rest that reads as
nothing and ends the same way. -/
theorem read_split (hw : 0 < F.width) (hc : F.Canonical) (bs : Bytes) :
    ∃ rest, bs = F.encodeAll (F.read bs).bodies ++ rest ∧
      F.read rest = ⟨[], (F.read bs).ending⟩ ∧ ∀ b ∈ (F.read bs).bodies, F.Fits b := by
  induction hlen : bs.length using Nat.strong_induction_on generalizing bs with
  | _ len ih =>
    by_cases hlt : bs.length < F.width
    · rw [F.read_of_lt_width hw hlt]
      exact ⟨bs, rfl, F.read_of_lt_width hw hlt, fun b hb => absurd hb List.not_mem_nil⟩
    · have hread := F.read_eq hw bs
      rw [if_neg hlt] at hread
      cases hsize : F.bodySize (leNat (bs.take F.width)) with
      | none =>
        rw [hsize] at hread
        rw [hread]
        exact ⟨bs, rfl, hread, fun b hb => absurd hb List.not_mem_nil⟩
      | some n =>
        rw [hsize] at hread
        dsimp only at hread
        split at hread
        · rw [hread]
          exact ⟨bs, rfl, hread, fun b hb => absurd hb List.not_mem_nil⟩
        · rename_i hthere
          obtain ⟨hframe, hfit⟩ := F.split_frame hc hlt hsize hthere
          obtain ⟨rest, hsplit, hrest, hfits⟩ := ih ((bs.drop F.width).drop n).length
            (by simp only [List.length_drop]; omega) ((bs.drop F.width).drop n) rfl
          rw [hread]
          refine ⟨rest, ?_, hrest, ?_⟩
          · calc bs = F.encode ((bs.drop F.width).take n) ++ (bs.drop F.width).drop n := hframe
              _ = F.encode ((bs.drop F.width).take n)
                    ++ (F.encodeAll (F.read ((bs.drop F.width).drop n)).bodies ++ rest) := by
                  rw [← hsplit]
              _ = _ := by rw [encodeAll_cons, List.append_assoc]
          · intro b hb
            rcases List.mem_cons.mp hb with rfl | hb
            · exact hfit
            · exact hfits b hb

/-- **The longest sequence of frames** at the beginning of a file is the one that is read. -/
theorem read_longest (hw : 0 < F.width) {bs : Bytes} {bodies : List Bytes}
    (hfit : ∀ b ∈ bodies, F.Fits b) (hpre : F.encodeAll bodies <+: bs) :
    bodies <+: (F.read bs).bodies := by
  obtain ⟨rest, rfl⟩ := hpre
  rw [F.read_encodeAll_append hw hfit]
  exact List.prefix_append _ _

/-- **A file that reads to a clean end is the frames it reads as**, and a rest shorter than a
length field. -/
theorem read_clean_iff (hw : 0 < F.width) (hc : F.Canonical) (bs : Bytes)
    (bodies : List Bytes) :
    F.read bs = ⟨bodies, .clean⟩ ↔
      ∃ rest, bs = F.encodeAll bodies ++ rest ∧ rest.length < F.width ∧
        ∀ b ∈ bodies, F.Fits b := by
  constructor
  · intro h
    obtain ⟨rest, hsplit, hrest, hfits⟩ := F.read_split hw hc bs
    rw [h] at hsplit hrest hfits
    refine ⟨rest, hsplit, ?_, hfits⟩
    by_contra hge
    exact F.read_ne_clean_nil hw (by omega) hrest
  · rintro ⟨rest, rfl, hshort, hfits⟩
    rw [F.read_encodeAll_append hw hfits, F.read_of_lt_width hw hshort, List.append_nil]

end FrameFormat
end Lib
