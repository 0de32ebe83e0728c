import LightGraph.Lib.Codec

/-!
# Pretty-printed JSON as a codec

The text of a JSON document with a fixed layout, piece by piece: what is always the same, a
number up to the byte that ends it, a quoted string, an indented array. Each piece tells its own
end, so each is a codec, and a document is their product.

Within a string the quote and the backslash are escaped. Control characters have escapes of
their own in JSON, which are left out.
-/

set_option autoImplicit false

namespace Lib

/-- The bytes of an ASCII text. -/
def ascii (text : String) : Bytes := text.toList.map fun c => UInt8.ofNat c.toNat

namespace Codec

variable {α : Type}

/-! ## Fixed text and choices -/

/-- The text, and nothing to tell. -/
def literal (text : Bytes) : Codec Unit where
  put _ := text
  get bs := (takeBytes text.length bs).bind fun p => if p.1 = text then some ((), p.2) else none
  get_put _ rest := by
    rw [takeBytes_append, Option.bind_some, if_pos rfl]
  get_more bs a rest more h := by
    rw [Option.bind_eq_some_iff] at h ⊢
    obtain ⟨⟨front, rest'⟩, htake, h⟩ := h
    refine ⟨_, takeBytes_more more htake, ?_⟩
    dsimp only at h ⊢
    split at h
    · rename_i heq
      rw [Option.some.injEq, Prod.mk.injEq] at h
      rw [if_pos heq, h.2]
    · exact absurd h (by simp)

theorem literal_get_eq_some {text bs rest : Bytes} (h : (literal text).get bs = some ((), rest)) :
    bs = text ++ rest := by
  obtain ⟨⟨front, rest'⟩, htake, h⟩ := Option.bind_eq_some_iff.mp h
  unfold takeBytes at htake
  dsimp only at h
  split at h
  · rename_i heq
    split at htake
    · rw [Option.some.injEq, Prod.mk.injEq] at h htake
      rw [← h.2, ← heq, ← htake.1, ← htake.2, List.take_append_drop]
    · exact absurd htake (by simp)
  · exact absurd h (by simp)

/-- Two texts neither of which is the beginning of the other. -/
structure Apart (yes no : Bytes) : Prop where
  left : ¬ yes <+: no
  right : ¬ no <+: yes

theorem Apart.get_no {yes no : Bytes} (h : Apart yes no) (rest : Bytes) :
    (literal yes).get (no ++ rest) = none := by
  cases hget : (literal yes).get (no ++ rest) with
  | none => rfl
  | some p =>
    have heq := literal_get_eq_some (show (literal yes).get (no ++ rest) = some ((), p.2) from hget)
    rcases List.prefix_or_prefix_of_prefix (List.prefix_append no rest)
      (heq ▸ List.prefix_append yes p.2) with hpre | hpre
    · exact absurd hpre h.right
    · exact absurd hpre h.left

/-- An input that begins with the one text does not begin with the other, however it goes on. -/
theorem Apart.get_more_no {yes no bs rest : Bytes} (h : Apart yes no) (more : Bytes)
    (hget : (literal no).get bs = some ((), rest)) : (literal yes).get (bs ++ more) = none := by
  rw [literal_get_eq_some hget, List.append_assoc]
  exact h.get_no _

/-- One text for nothing, and another one in front of a value. -/
def choice (c : Codec α) (yes no : Bytes) (h : Apart yes no) : Codec (Option α) where
  put o := match o with
    | none => no
    | some a => yes ++ c.put a
  get bs := match (literal yes).get bs with
    | some (_, bs) => (c.get bs).map fun p => (some p.1, p.2)
    | none => ((literal no).get bs).map fun p => (none, p.2)
  get_put o rest := by
    cases o with
    | none =>
      have hno : (literal no).get (no ++ rest) = some ((), rest) := (literal no).get_put () rest
      simp only [h.get_no, hno, Option.map_some]
    | some a =>
      have hyes : (literal yes).get (yes ++ (c.put a ++ rest)) = some ((), c.put a ++ rest) :=
        (literal yes).get_put () _
      simp only [List.append_assoc, hyes, c.get_put, Option.map_some]
  get_more bs o rest more hget := by
    cases hyes : (literal yes).get bs with
    | some p =>
      simp only [hyes] at hget
      obtain ⟨⟨a, r⟩, ha, heq⟩ := Option.map_eq_some_iff.mp hget
      obtain ⟨rfl, rfl⟩ := Prod.mk.inj heq
      simp only [(literal yes).get_more bs () p.2 more hyes, c.get_more _ _ _ more ha,
        Option.map_some]
    | none =>
      simp only [hyes] at hget
      obtain ⟨⟨u, r⟩, hno, heq⟩ := Option.map_eq_some_iff.mp hget
      obtain ⟨rfl, rfl⟩ := Prod.mk.inj heq
      simp only [h.get_more_no more hno, (literal no).get_more bs () r more hno, Option.map_some]

/-! ## Series -/

/-- Values one behind the other, each behind the one text, and the other text behind the last. -/
def putSeries (put : α → Bytes) (yes no : Bytes) (as : List α) : Bytes :=
  as.flatMap (fun a => yes ++ put a) ++ no

def getSeries (get : Bytes → Option (α × Bytes)) (yes no : Bytes) :
    Nat → Bytes → Option (List α × Bytes)
  | 0, _ => none
  | fuel + 1, bs =>
    match (literal yes).get bs with
    | some (_, bs) =>
      (get bs).bind fun p => (getSeries get yes no fuel p.2).map fun q => (p.1 :: q.1, q.2)
    | none => ((literal no).get bs).map fun p => ([], p.2)

theorem getSeries_put (c : Codec α) {yes no : Bytes} (h : Apart yes no) (as : List α) :
    ∀ (fuel : Nat) (rest : Bytes), as.length < fuel →
      getSeries c.get yes no fuel (putSeries c.put yes no as ++ rest) = some (as, rest) := by
  induction as with
  | nil =>
    intro fuel rest hfuel
    obtain ⟨fuel, rfl⟩ : ∃ n, fuel = n + 1 := ⟨fuel - 1, by omega⟩
    have hno : (literal no).get (no ++ rest) = some ((), rest) := (literal no).get_put () rest
    simp only [putSeries, List.flatMap_nil, List.nil_append, getSeries, h.get_no, hno,
      Option.map_some]
  | cons a as ih =>
    intro fuel rest hfuel
    rw [List.length_cons] at hfuel
    obtain ⟨fuel, rfl⟩ : ∃ n, fuel = n + 1 := ⟨fuel - 1, by omega⟩
    have hsplit : putSeries c.put yes no (a :: as) ++ rest
        = yes ++ (c.put a ++ (putSeries c.put yes no as ++ rest)) := by
      simp only [putSeries, List.flatMap_cons, List.append_assoc]
    have hyes : (literal yes).get (yes ++ (c.put a ++ (putSeries c.put yes no as ++ rest)))
        = some ((), _) := (literal yes).get_put () _
    rw [hsplit, getSeries]
    simp only [hyes, c.get_put, Option.bind_some, ih fuel rest (by omega), Option.map_some]

theorem getSeries_more (c : Codec α) {yes no : Bytes} (h : Apart yes no) (more : Bytes) :
    ∀ (fuel fuel' : Nat) (bs : Bytes) (as : List α) (rest : Bytes), fuel ≤ fuel' →
      getSeries c.get yes no fuel bs = some (as, rest) →
      getSeries c.get yes no fuel' (bs ++ more) = some (as, rest ++ more) := by
  intro fuel
  induction fuel with
  | zero => exact fun _ _ _ _ _ hget => absurd hget (by simp [getSeries])
  | succ fuel ih =>
    intro fuel' bs as rest hle hget
    obtain ⟨fuel', rfl⟩ : ∃ n, fuel' = n + 1 := ⟨fuel' - 1, by omega⟩
    rw [getSeries] at hget ⊢
    cases hyes : (literal yes).get bs with
    | some p =>
      simp only [hyes] at hget
      obtain ⟨⟨a, mid⟩, ha, hget⟩ := Option.bind_eq_some_iff.mp hget
      obtain ⟨⟨as', r⟩, hrest, heq⟩ := Option.map_eq_some_iff.mp hget
      obtain ⟨rfl, rfl⟩ := Prod.mk.inj heq
      simp only [(literal yes).get_more bs () p.2 more hyes, c.get_more _ _ _ more ha,
        Option.bind_some, ih fuel' mid as' r (by omega) hrest, Option.map_some]
    | none =>
      simp only [hyes] at hget
      obtain ⟨⟨u, r⟩, hno, heq⟩ := Option.map_eq_some_iff.mp hget
      obtain ⟨rfl, rfl⟩ := Prod.mk.inj heq
      simp only [h.get_more_no more hno, (literal no).get_more bs () r more hno, Option.map_some]

theorem length_lt_putSeries {put : α → Bytes} {yes no : Bytes} (h : Apart yes no) (as : List α)
    (rest : Bytes) : as.length < (putSeries put yes no as ++ rest).length + 1 := by
  have hyes : 0 < yes.length := List.length_pos_iff.mpr fun hnil => h.left (hnil ▸ List.nil_prefix)
  have hle : as.length ≤ (putSeries put yes no as).length := by
    induction as with
    | nil => exact Nat.zero_le _
    | cons a as ih =>
      simp only [putSeries, List.flatMap_cons, List.length_append, List.length_cons] at ih ⊢
      omega
  rw [List.length_append]
  omega

def series (c : Codec α) (yes no : Bytes) (h : Apart yes no) : Codec (List α) where
  put := putSeries c.put yes no
  get bs := getSeries c.get yes no (bs.length + 1) bs
  get_put as rest := getSeries_put c h as _ rest (length_lt_putSeries h as rest)
  get_more bs as rest more hget := by
    refine getSeries_more c h more _ _ bs as rest ?_ hget
    rw [List.length_append]
    omega

/-! ## Numbers -/

/-- A number in decimal. -/
def decimal (n : Nat) : Bytes := (Nat.toDigits 10 n).map fun c => UInt8.ofNat c.toNat

def isDigitByte (b : UInt8) : Bool := 0x30 ≤ b && b ≤ 0x39

def ofDecimal (digits : Bytes) : Nat :=
  Nat.ofDigitChars 10 (digits.map fun b => Char.ofNat b.toNat) 0

theorem toNat_of_isDigit {c : Char} (h : c.isDigit = true) : 48 ≤ c.toNat ∧ c.toNat ≤ 57 := by
  rw [Char.isDigit, Bool.and_eq_true, decide_eq_true_iff, decide_eq_true_iff] at h
  exact ⟨UInt32.le_iff_toNat_le.mp h.1, UInt32.le_iff_toNat_le.mp h.2⟩

theorem isDigitByte_of_mem {n : Nat} {b : UInt8} (h : b ∈ decimal n) : isDigitByte b = true := by
  obtain ⟨c, hc, rfl⟩ := List.mem_map.mp h
  obtain ⟨hlow, hhigh⟩ := toNat_of_isDigit (Nat.isDigit_of_mem_toDigits (by decide) (by decide) hc)
  have hbyte : (UInt8.ofNat c.toNat).toNat = c.toNat := by
    rw [UInt8.toNat_ofNat', Nat.mod_eq_of_lt (by omega)]
  rw [isDigitByte, Bool.and_eq_true, decide_eq_true_iff, decide_eq_true_iff,
    UInt8.le_iff_toNat_le, UInt8.le_iff_toNat_le, hbyte]
  exact ⟨hlow, hhigh⟩

theorem ofDecimal_decimal (n : Nat) : ofDecimal (decimal n) = n := by
  have hback : (decimal n).map (fun b => Char.ofNat b.toNat) = Nat.toDigits 10 n := by
    rw [decimal, List.map_map]
    refine (List.map_congr_left fun c hc => ?_).trans (List.map_id _)
    obtain ⟨_, hhigh⟩ := toNat_of_isDigit (Nat.isDigit_of_mem_toDigits (by decide) (by decide) hc)
    have hbyte : (UInt8.ofNat c.toNat).toNat = c.toNat := by
      rw [UInt8.toNat_ofNat', Nat.mod_eq_of_lt (by omega)]
    rw [Function.comp_apply, hbyte, Char.ofNat_toNat, id]
  rw [ofDecimal, hback, Nat.ofDigitChars_ten_toDigits]

/-- A number and the byte behind it, which is no digit. Zeros in front are not JSON. -/
def number (stop : UInt8) (hstop : isDigitByte stop = false) : Codec UInt64 where
  put n := decimal n.toNat ++ [stop]
  get bs :=
    let digits := bs.takeWhile isDigitByte
    match bs.dropWhile isDigitByte with
    | [] => none
    | b :: rest =>
      if b = stop ∧ digits = decimal (ofDecimal digits) ∧ ofDecimal digits < 2 ^ 64 then
        some (UInt64.ofNat (ofDecimal digits), rest)
      else none
  get_put n rest := by
    have hdigits : ∀ b ∈ decimal n.toNat, isDigitByte b = true := fun _ => isDigitByte_of_mem
    have htake : (decimal n.toNat ++ [stop] ++ rest).takeWhile isDigitByte = decimal n.toNat := by
      rw [List.append_assoc, List.takeWhile_append_of_pos hdigits, List.singleton_append,
        List.takeWhile_cons_of_neg (by rw [hstop]; decide), List.append_nil]
    have hdrop : (decimal n.toNat ++ [stop] ++ rest).dropWhile isDigitByte = stop :: rest := by
      rw [List.append_assoc, List.dropWhile_append_of_pos hdigits, List.singleton_append,
        List.dropWhile_cons_of_neg (by rw [hstop]; decide)]
    simp only [htake, hdrop, ofDecimal_decimal, true_and, if_pos n.toNat_lt, UInt64.ofNat_toNat]
  get_more bs n rest more hget := by
    dsimp only at hget ⊢
    cases hdrop : bs.dropWhile isDigitByte with
    | nil => rw [hdrop] at hget; exact absurd hget (by simp)
    | cons b tail =>
      have hmore : (bs ++ more).dropWhile isDigitByte = b :: (tail ++ more) := by
        rw [List.dropWhile_append, hdrop, List.isEmpty_cons, if_neg (by decide)]
        rfl
      have hshort : (bs.takeWhile isDigitByte).length ≠ bs.length := by
        intro hlen
        have hsplit := congrArg List.length
          (List.takeWhile_append_dropWhile (p := isDigitByte) (l := bs))
        rw [hdrop, List.length_append, List.length_cons] at hsplit
        omega
      have hsame : (bs ++ more).takeWhile isDigitByte = bs.takeWhile isDigitByte := by
        rw [List.takeWhile_append, if_neg hshort]
      rw [hmore, hsame]
      rw [hdrop] at hget
      dsimp only at hget ⊢
      split at hget
      · rename_i hok
        rw [Option.some.injEq, Prod.mk.injEq] at hget
        rw [if_pos hok, hget.1, hget.2]
      · exact absurd hget (by simp)

/-! ## Strings -/

def quote : UInt8 := 0x22
def backslash : UInt8 := 0x5C

def escape (bs : Bytes) : Bytes :=
  bs.flatMap fun b => if b = quote ∨ b = backslash then [backslash, b] else [b]

/-- Up to the quote that ends the string. -/
def unescape : Bytes → Option (Bytes × Bytes)
  | [] => none
  | b :: bs =>
    if b = quote then some ([], bs)
    else if b = backslash then
      match bs with
      | [] => none
      | c :: bs =>
        if c = quote ∨ c = backslash then (unescape bs).map fun p => (c :: p.1, p.2) else none
    else (unescape bs).map fun p => (b :: p.1, p.2)

theorem unescape_quote (bs : Bytes) : unescape (quote :: bs) = some ([], bs) := by
  rw [unescape.eq_def]
  exact if_pos rfl

theorem unescape_escaped {c : UInt8} (hc : c = quote ∨ c = backslash) (bs : Bytes) :
    unescape (backslash :: c :: bs) = (unescape bs).map fun p => (c :: p.1, p.2) := by
  rw [unescape.eq_def]
  exact (if_neg (by decide)).trans ((if_pos rfl).trans (if_pos hc))

theorem unescape_plain {b : UInt8} (hquote : b ≠ quote) (hback : b ≠ backslash) (bs : Bytes) :
    unescape (b :: bs) = (unescape bs).map fun p => (b :: p.1, p.2) := by
  rw [unescape.eq_def]
  exact (if_neg hquote).trans (if_neg hback)

theorem unescape_escape (bs rest : Bytes) :
    unescape (escape bs ++ quote :: rest) = some (bs, rest) := by
  induction bs with
  | nil => exact unescape_quote rest
  | cons b bs ih =>
    have hsplit : escape (b :: bs) ++ quote :: rest
        = (if b = quote ∨ b = backslash then [backslash, b] else [b])
          ++ (escape bs ++ quote :: rest) := by
      rw [escape, List.flatMap_cons, List.append_assoc, escape]
    rw [hsplit]
    by_cases hb : b = quote ∨ b = backslash
    · rw [if_pos hb, List.cons_append, List.singleton_append, unescape_escaped hb, ih,
        Option.map_some]
    · obtain ⟨hquote, hback⟩ := not_or.mp hb
      rw [if_neg hb, List.singleton_append, unescape_plain hquote hback, ih, Option.map_some]

theorem unescape_more (bs more : Bytes) : ∀ text rest, unescape bs = some (text, rest) →
    unescape (bs ++ more) = some (text, rest ++ more) := by
  induction bs using unescape.induct with
  | case1 => exact fun _ _ h => absurd h (by simp [unescape])
  | case2 bs =>
    intro text rest h
    rw [unescape_quote, Option.some.injEq, Prod.mk.injEq] at h
    rw [List.cons_append, unescape_quote, ← h.1, ← h.2]
  | case3 hne => exact fun _ _ h => absurd h (by simp [unescape, hne])
  | case4 c bs hc hne ih =>
    intro text rest h
    rw [unescape_escaped hc] at h
    obtain ⟨⟨text', rest'⟩, hget, heq⟩ := Option.map_eq_some_iff.mp h
    obtain ⟨rfl, rfl⟩ := Prod.mk.inj heq
    rw [List.cons_append, List.cons_append, unescape_escaped hc, ih _ _ hget, Option.map_some]
  | case5 c bs hc hne => exact fun _ _ h => absurd h (by simp [unescape, hne, hc])
  | case6 b bs hquote hback ih =>
    intro text rest h
    rw [unescape_plain hquote hback] at h
    obtain ⟨⟨text', rest'⟩, hget, heq⟩ := Option.map_eq_some_iff.mp h
    obtain ⟨rfl, rfl⟩ := Prod.mk.inj heq
    rw [List.cons_append, unescape_plain hquote hback, ih _ _ hget, Option.map_some]

/-- A string between quotes; bytes that are no text are refused. -/
def quoted : Codec String where
  put s := quote :: (escape (utf8Bytes s) ++ [quote])
  get bs := ((literal [quote]).get bs).bind fun p => (unescape p.2).bind fun q =>
    if utf8Bytes (fromUtf8Lossy q.1) = q.1 then some (fromUtf8Lossy q.1, q.2) else none
  get_put s rest := by
    have hopen : (literal [quote]).get (quote :: (escape (utf8Bytes s) ++ quote :: rest))
        = some ((), escape (utf8Bytes s) ++ quote :: rest) := (literal [quote]).get_put () _
    rw [List.cons_append, List.append_assoc, List.singleton_append, hopen, Option.bind_some,
      unescape_escape, Option.bind_some]
    simp only [fromUtf8Lossy_utf8Bytes, if_true]
  get_more bs s rest more h := by
    obtain ⟨⟨u, mid⟩, hopen, h⟩ := Option.bind_eq_some_iff.mp h
    obtain ⟨⟨text, rest'⟩, htext, h⟩ := Option.bind_eq_some_iff.mp h
    rw [(literal [quote]).get_more bs () mid more hopen, Option.bind_some,
      unescape_more _ more _ _ htext, Option.bind_some]
    dsimp only at h ⊢
    split at h
    · rename_i hutf
      rw [Option.some.injEq, Prod.mk.injEq] at h
      rw [if_pos hutf, h.1, h.2]
    · exact absurd h (by simp)

end Codec
end Lib
