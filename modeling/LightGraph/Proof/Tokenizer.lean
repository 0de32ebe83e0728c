import LightGraph.Index.Fulltext
import LightGraph.Lib.Scanner

/-!
# The tokens of a text

The analyzer is a scanner for terms; the positions only number what it finds (`tokenizeLoop_eq`). So
a text can be cut at any character that is no letter, no digit and not CJK, and tokenized piece by
piece (`tokenize_separator`).

Every CJK character should be found as a term of its own and every two neighbours as a bigram. A
word takes all the letters there are, however, and CJK letters are letters: those right behind a
Latin letter end up in its word. That is the one case in which a CJK character is lost
(`cjk_indexed_iff`).
-/

set_option autoImplicit false

namespace LightGraph

open Lib

namespace CjkAnalyzer
variable (cls : CharClasses)

/-! ## The terms -/

/-- A CJK character: with the next one if that is CJK, and alone. -/
def cjkTerms (c : Char) : Option Char → List String
  | some d => if isCjk d then [String.ofList [c, d], String.ofList [c]] else [String.ofList [c]]
  | none => [String.ofList [c]]

def word (cs : List Char) : String :=
  String.ofList ((cs.takeWhile cls.isAlphabetic).flatMap cls.toLowercase)

/-- One round of the loop: the terms it finds and what it leaves. -/
def cut (c : Char) (rest : List Char) : List String × List Char :=
  if isCjk c then (cjkTerms c rest.head?, rest)
  else if cls.isAlphabetic c then
    ([word cls (c :: rest)], (c :: rest).dropWhile cls.isAlphabetic)
  else if cls.isNumeric c then
    ([String.ofList ((c :: rest).takeWhile cls.isNumeric)], (c :: rest).dropWhile cls.isNumeric)
  else ([], rest)

section Cut
variable {cls} {c : Char} (rest : List Char)

theorem cut_cjk (hcjk : isCjk c = true) : cut cls c rest = (cjkTerms c rest.head?, rest) :=
  if_pos hcjk

theorem cut_word (hcjk : isCjk c = false) (halpha : cls.isAlphabetic c = true) :
    cut cls c rest = ([word cls (c :: rest)], (c :: rest).dropWhile cls.isAlphabetic) := by
  simp only [cut, hcjk, halpha, if_true, Bool.false_eq_true, if_false]

theorem cut_number (hcjk : isCjk c = false) (halpha : cls.isAlphabetic c = false)
    (hnum : cls.isNumeric c = true) :
    cut cls c rest = ([String.ofList ((c :: rest).takeWhile cls.isNumeric)],
      (c :: rest).dropWhile cls.isNumeric) := by
  simp only [cut, hcjk, halpha, hnum, if_true, Bool.false_eq_true, if_false]

theorem cut_skip (hcjk : isCjk c = false) (halpha : cls.isAlphabetic c = false)
    (hnum : cls.isNumeric c = false) : cut cls c rest = ([], rest) := by
  simp only [cut, hcjk, halpha, hnum, Bool.false_eq_true, if_false]

end Cut

/-- What a round can start with. -/
inductive Start (c : Char) : Prop
  | cjk (hcjk : isCjk c = true)
  | word (hcjk : isCjk c = false) (halpha : cls.isAlphabetic c = true)
  | number (hcjk : isCjk c = false) (halpha : cls.isAlphabetic c = false)
      (hnum : cls.isNumeric c = true)
  | skip (hcjk : isCjk c = false) (halpha : cls.isAlphabetic c = false)
      (hnum : cls.isNumeric c = false)

theorem start_cases (c : Char) : Start cls c := by
  cases hcjk : isCjk c with
  | true => exact .cjk hcjk
  | false =>
    cases halpha : cls.isAlphabetic c with
    | true => exact .word hcjk halpha
    | false =>
      cases hnum : cls.isNumeric c with
      | true => exact .number hcjk halpha hnum
      | false => exact .skip hcjk halpha hnum

theorem cut_shortens : Shortens (cut cls) := by
  intro c rest
  cases start_cases cls c with
  | cjk hcjk => rw [cut_cjk rest hcjk]
  | word hcjk halpha =>
    rw [cut_word rest hcjk halpha, List.dropWhile_cons_of_pos halpha]
    exact List.length_dropWhile_le _ _
  | number hcjk halpha hnum =>
    rw [cut_number rest hcjk halpha hnum, List.dropWhile_cons_of_pos hnum]
    exact List.length_dropWhile_le _ _
  | skip hcjk halpha hnum => rw [cut_skip rest hcjk halpha hnum]

/-- The terms of a text. -/
def terms (cs : List Char) : List String := scanAll (cut cls) cs

def number : UInt32 → List String → List Token
  | _, [] => []
  | pos, term :: terms => { term, position := pos } :: number (pos + 1) terms

theorem tokenizeLoop_eq (rounds : Nat) : ∀ (cs : List Char) (pos : UInt32),
    tokenizeLoop cls rounds cs pos = number pos (scan (cut cls) rounds cs) := by
  induction rounds with
  | zero => exact fun cs pos => rfl
  | succ rounds ih =>
    intro cs pos
    cases cs with
    | nil => rfl
    | cons c rest =>
      rw [tokenizeLoop, scan]
      cases start_cases cls c with
      | cjk hcjk =>
        rw [if_pos hcjk, cut_cjk rest hcjk]
        cases rest.head? with
        | none => simp only [ih]; rfl
        | some d =>
          have htwo : pos + 2 = pos + 1 + 1 := by rw [UInt32.add_assoc]; rfl
          simp only [cjkTerms, htwo, ih]
          cases isCjk d <;> rfl
      | word hcjk halpha =>
        rw [if_neg (by simp [hcjk]), if_pos halpha, cut_word rest hcjk halpha, ih]
        rfl
      | number hcjk halpha hnum =>
        rw [if_neg (by simp [hcjk]), if_neg (by simp [halpha]), if_pos hnum,
          cut_number rest hcjk halpha hnum, ih]
        rfl
      | skip hcjk halpha hnum =>
        rw [if_neg (by simp [hcjk]), if_neg (by simp [halpha]), if_neg (by simp [hnum]),
          cut_skip rest hcjk halpha hnum, ih]
        rfl

theorem tokenize_eq (text : String) : tokenize cls text = number 0 (terms cls text.toList) :=
  tokenizeLoop_eq cls _ _ _

/-! ## The positions -/

theorem length_number (ts : List String) : ∀ pos, (number pos ts).length = ts.length := by
  induction ts with
  | nil => exact fun _ => rfl
  | cons t ts ih => exact fun pos => congrArg (· + 1) (ih (pos + 1))

theorem number_append (ts us : List String) : ∀ pos,
    number pos (ts ++ us) = number pos ts ++ number (pos + UInt32.ofNat ts.length) us := by
  induction ts with
  | nil =>
    intro pos
    exact congrArg (number · us) (UInt32.add_zero pos).symm
  | cons t ts ih =>
    intro pos
    have hpos : pos + 1 + UInt32.ofNat ts.length = pos + UInt32.ofNat (ts.length + 1) := by
      rw [UInt32.ofNat_add, UInt32.add_assoc, UInt32.add_comm 1]
      rfl
    rw [List.cons_append, number, ih, hpos]
    rfl

theorem number_shift (k : UInt32) (ts : List String) : ∀ pos,
    number (pos + k) ts = (number pos ts).map fun t => { t with position := t.position + k } := by
  induction ts with
  | nil => exact fun _ => rfl
  | cons t ts ih =>
    intro pos
    rw [number, number, List.map_cons, ← ih, UInt32.add_assoc, UInt32.add_comm k,
      ← UInt32.add_assoc]

theorem positions_number (ts : List String) : ∀ start : Nat, start + ts.length < 2 ^ 32 →
    (number (UInt32.ofNat start) ts).map (fun t => t.position.toNat) =
      List.range' start ts.length := by
  induction ts with
  | nil => exact fun _ _ => rfl
  | cons t ts ih =>
    intro start hlt
    rw [List.length_cons] at hlt
    have hstart : (UInt32.ofNat start).toNat = start :=
      UInt32.toNat_ofNat_of_lt' (show _ < 2 ^ 32 by omega)
    have hnext : UInt32.ofNat start + 1 = UInt32.ofNat (start + 1) := (UInt32.ofNat_add _ _).symm
    rw [number, List.map_cons, hnext, ih (start + 1) (by omega), hstart, List.length_cons,
      List.range'_succ]

/-! ## Separators -/

variable {cls} in
theorem cut_stop {s : Char} (hcjk : isCjk s = false) (halpha : cls.isAlphabetic s = false)
    (hnum : cls.isNumeric s = false) (ys : List Char) (c : Char) (rest : List Char) :
    cut cls c (rest ++ s :: ys) = ((cut cls c rest).1, (cut cls c rest).2 ++ s :: ys) := by
  cases start_cases cls c with
  | cjk hc =>
    rw [cut_cjk _ hc, cut_cjk _ hc]
    cases rest with
    | nil => simp [cjkTerms, hcjk]
    | cons d rest => rfl
  | word hc ha =>
    rw [cut_word _ hc ha, cut_word _ hc ha, word, word, ← List.cons_append,
      takeWhile_append_stop halpha, dropWhile_append_stop halpha]
  | number hc ha hn =>
    rw [cut_number _ hc ha hn, cut_number _ hc ha hn, ← List.cons_append,
      takeWhile_append_stop hnum, dropWhile_append_stop hnum]
  | skip hc ha hn => rw [cut_skip _ hc ha hn, cut_skip _ hc ha hn]

variable {cls} in
theorem tokenize_append {c : Char} (hcjk : isCjk c = false) (halpha : cls.isAlphabetic c = false)
    (hnum : cls.isNumeric c = false) (a b : String) :
    tokenize cls (a ++ String.singleton c ++ b) =
      tokenize cls a ++ (tokenize cls b).map fun t =>
        { t with position := t.position + UInt32.ofNat (tokenize cls a).length } := by
  have hchars : (a ++ String.singleton c ++ b).toList = a.toList ++ c :: b.toList := by simp
  have hterms : terms cls (a.toList ++ c :: b.toList) = terms cls a.toList ++ terms cls b.toList :=
    scanAll_separator (cut_shortens cls) (fun rest => cut_skip rest hcjk halpha hnum)
      (cut_stop hcjk halpha hnum b.toList) a.toList
  rw [tokenize_eq, tokenize_eq, tokenize_eq, hchars, hterms, number_append, length_number,
    number_shift]

theorem positions_tokenize (text : String) (h : (tokenize cls text).length < 2 ^ 32) :
    (tokenize cls text).map (fun t => t.position.toNat) =
      List.range (tokenize cls text).length := by
  rw [tokenize_eq, length_number] at *
  rw [List.range_eq_range']
  exact positions_number _ 0 (by omega)

/-- **Tokenizing distributes over separators**, and the positions of a text are 0, 1, 2, … -/
theorem tokenize_separator :
    (∀ (a b : String) (c : Char), isCjk c = false → cls.isAlphabetic c = false →
      cls.isNumeric c = false →
      tokenize cls (a ++ String.singleton c ++ b) =
        tokenize cls a ++ (tokenize cls b).map fun t =>
          { t with position := t.position + UInt32.ofNat (tokenize cls a).length }) ∧
    ∀ text, (tokenize cls text).length < 2 ^ 32 →
      (tokenize cls text).map (fun t => t.position.toNat) =
        List.range (tokenize cls text).length :=
  ⟨fun a b _ hcjk halpha hnum => tokenize_append hcjk halpha hnum a b, positions_tokenize cls⟩

/-- Latin letters and digits, and every CJK character a letter. -/
def mixedClasses : CharClasses :=
  { isAlphabetic := fun c => c.isAlpha || isCjk c, isNumeric := Char.isDigit
    toLowercase := fun c => [c.toLower] }

theorem tokenize_separator_space :
    tokenize mixedClasses ("無鎖" ++ String.singleton ' ' ++ "Rust") =
      tokenize mixedClasses "無鎖" ++ (tokenize mixedClasses "Rust").map (fun t =>
        { t with position := t.position + UInt32.ofNat (tokenize mixedClasses "無鎖").length }) ∧
    (tokenize mixedClasses "無鎖").map (fun t => t.position.toNat) = List.range 3 :=
  ⟨(tokenize_separator mixedClasses).1 _ _ _ (by decide) (by decide) (by decide),
    (tokenize_separator mixedClasses).2 "無鎖" (by decide)⟩

/-! ## CJK characters in a text -/

/-- What the tables say of the CJK characters: none is a digit or the like, and no other character
is one in lower case. -/
structure CjkTables : Prop where
  notNumeric : ∀ c, isCjk c = true → cls.isNumeric c = false
  lowercase : ∀ c, isCjk c = false → ∃ d ∈ cls.toLowercase c, isCjk d = false

/-- Every CJK character is a term once for every time it occurs, and every two neighbours are a
term together. -/
structure CjkIndexed (text : String) : Prop where
  single : ∀ k, isCjk k = true →
    ((tokenize cls text).map Token.term).count (String.ofList [k]) = text.toList.count k
  bigram : ∀ pre c d post, text.toList = pre ++ c :: d :: post → isCjk c = true →
    isCjk d = true → String.ofList [c, d] ∈ (tokenize cls text).map Token.term

/-- What has been read, last character first, ends in numeric characters, not all of them
letters. -/
def EndsInNumber (before : List Char) : Prop :=
  ∃ d ∈ before.takeWhile cls.isNumeric, cls.isAlphabetic d = false

/-- No CJK letter directly follows another letter, unless that one ends a number. -/
def ScriptsApart (before cs : List Char) : Prop :=
  ∀ pre c k post, cs = pre ++ c :: k :: post → isCjk c = false → cls.isAlphabetic c = true →
    isCjk k = true → cls.isAlphabetic k = true → EndsInNumber cls (c :: (pre.reverse ++ before))

section Apart
variable {cls} {before before' cs : List Char} {c : Char}

theorem not_endsInNumber_nil : ¬ EndsInNumber cls [] := by
  rintro ⟨d, hd, _⟩
  exact List.not_mem_nil hd

theorem endsInNumber_cons : EndsInNumber cls (c :: before) ↔
    cls.isNumeric c = true ∧ (cls.isAlphabetic c = false ∨ EndsInNumber cls before) := by
  unfold EndsInNumber
  cases hnum : cls.isNumeric c with
  | true => simp [hnum]
  | false => simp [hnum]

theorem apart_nil : ScriptsApart cls before [] := by
  intro pre c k post h
  exact absurd h (by simp)

theorem apart_cons : ScriptsApart cls before (c :: cs) ↔
    (∀ k ∈ cs.head?, isCjk c = false → cls.isAlphabetic c = true → isCjk k = true →
      cls.isAlphabetic k = true → EndsInNumber cls (c :: before)) ∧
    ScriptsApart cls (c :: before) cs := by
  constructor
  · intro h
    constructor
    · intro k hk
      obtain ⟨post, rfl⟩ : ∃ post, cs = k :: post := List.head?_eq_some_iff.mp hk
      exact h [] c k post rfl
    · intro pre d k post hsplit hcjk halpha hcjk' halpha'
      have hends := h (c :: pre) d k post (by rw [hsplit, List.cons_append]) hcjk halpha hcjk'
        halpha'
      rwa [List.reverse_cons, List.append_assoc] at hends
  · rintro ⟨hhead, hrest⟩ pre d k post hsplit hcjk halpha hcjk' halpha'
    cases pre with
    | nil =>
      obtain ⟨rfl, rfl⟩ := List.cons.inj hsplit
      exact hhead k rfl hcjk halpha hcjk' halpha'
    | cons c' pre =>
      obtain ⟨rfl, rfl⟩ := List.cons.inj hsplit
      rw [List.reverse_cons, List.append_assoc]
      exact hrest pre d k post rfl hcjk halpha hcjk' halpha'

instance : Decidable (EndsInNumber cls before) :=
  inferInstanceAs (Decidable (∃ d ∈ before.takeWhile cls.isNumeric, cls.isAlphabetic d = false))

instance decidableApart (cls : CharClasses) :
    (before cs : List Char) → Decidable (ScriptsApart cls before cs)
  | _, [] => isTrue apart_nil
  | before, c :: cs =>
    haveI := decidableApart cls (c :: before) cs
    haveI := Option.decidableForallMem (p := fun k => isCjk c = false → cls.isAlphabetic c = true →
      isCjk k = true → cls.isAlphabetic k = true → EndsInNumber cls (c :: before)) cs.head?
    decidable_of_iff _ apart_cons.symm

/-- Of what has been read only that matters. -/
theorem apart_congr (h : EndsInNumber cls before ↔ EndsInNumber cls before') :
    ScriptsApart cls before cs ↔ ScriptsApart cls before' cs := by
  induction cs generalizing before before' with
  | nil => exact iff_of_true apart_nil apart_nil
  | cons c cs ih =>
    have hc : EndsInNumber cls (c :: before) ↔ EndsInNumber cls (c :: before') := by
      rw [endsInNumber_cons, endsInNumber_cons, h]
    rw [apart_cons, apart_cons, hc, ih hc]

/-- A character that is not numeric ends whatever number there is. -/
theorem apart_cons_of_not_numeric (hnum : cls.isNumeric c = false) :
    ScriptsApart cls before (c :: cs) ↔ ScriptsApart cls [] (c :: cs) := by
  have hc : ∀ b, ¬ EndsInNumber cls (c :: b) := fun b h => by
    rw [endsInNumber_cons, hnum] at h
    exact absurd h.1 (by simp)
  have hiff : EndsInNumber cls (c :: before) ↔ EndsInNumber cls [c] :=
    iff_of_false (hc before) (hc [])
  rw [apart_cons, apart_cons, hiff, apart_congr hiff]

/-- A word: every CJK letter in it follows another letter, or one that does. -/
theorem apart_word {w r : List Char} (hword : ∀ d ∈ c :: w, cls.isAlphabetic d = true)
    (hstop : ∀ d, r.head? = some d → cls.isAlphabetic d = false)
    (hbefore : ¬ EndsInNumber cls before) (hcjk : isCjk c = false) :
    ScriptsApart cls before (c :: (w ++ r)) ↔
      (∀ k ∈ w, isCjk k = false) ∧ ScriptsApart cls [] r := by
  induction w generalizing c before with
  | nil =>
    have halpha := hword c List.mem_cons_self
    have hends : ¬ EndsInNumber cls (c :: before) := by
      rw [endsInNumber_cons, halpha]
      simp [hbefore]
    rw [List.nil_append, apart_cons, apart_congr (iff_of_false hends not_endsInNumber_nil)]
    refine and_congr_left fun _ => iff_of_true ?_ (by simp)
    intro k hk _ _ _ halpha'
    exact absurd halpha' (by simp [hstop k hk])
  | cons d w ih =>
    have halpha := hword c List.mem_cons_self
    have halpha' := hword d (List.mem_cons_of_mem c List.mem_cons_self)
    have hends : ¬ EndsInNumber cls (c :: before) := by
      rw [endsInNumber_cons, halpha]
      simp [hbefore]
    rw [List.cons_append, apart_cons]
    cases hd : isCjk d with
    | true =>
      refine iff_of_false ?_ ?_
      · exact fun h => hends (h.1 d rfl hcjk halpha hd halpha')
      · exact fun h => absurd (h.1 d List.mem_cons_self) (by simp [hd])
    | false =>
      rw [ih (fun e he => hword e (List.mem_cons_of_mem c he)) hends hd]
      constructor
      · rintro ⟨_, hw, hr⟩
        refine ⟨fun k hk => ?_, hr⟩
        rcases List.mem_cons.mp hk with rfl | hk
        · exact hd
        · exact hw k hk
      · rintro ⟨hw, hr⟩
        refine ⟨fun k hk _ _ hk' _ => ?_, fun k hk => hw k (List.mem_cons_of_mem d hk), hr⟩
        obtain rfl := Option.some.inj hk
        exact absurd hk' (by simp [hd])

/-- A number: whatever CJK letter follows one of its characters follows a number. -/
theorem apart_number {n r : List Char} (hnumber : ∀ d ∈ n, cls.isNumeric d = true)
    (hstop : ∀ d, r.head? = some d → cls.isNumeric d = false)
    (hbefore : EndsInNumber cls before) :
    ScriptsApart cls before (n ++ r) ↔ ScriptsApart cls [] r := by
  induction n generalizing before with
  | nil =>
    cases r with
    | nil => exact iff_of_true apart_nil apart_nil
    | cons d r => exact apart_cons_of_not_numeric (hstop d rfl)
  | cons d n ih =>
    have hends : EndsInNumber cls (d :: before) :=
      endsInNumber_cons.mpr ⟨hnumber d List.mem_cons_self, Or.inr hbefore⟩
    rw [List.cons_append, apart_cons, ih (fun e he => hnumber e (List.mem_cons_of_mem d he)) hends]
    exact and_iff_right fun _ _ _ _ _ _ => hends

end Apart

/-- What a round that starts at `c` does with the CJK characters among those it takes. -/
structure Took (c : Char) (rest taken : List Char) : Prop where
  split : c :: rest = taken ++ (cut cls c rest).2
  count_le : ∀ k, isCjk k = true →
    (cut cls c rest).1.count (String.ofList [k]) ≤ taken.count k
  apart : ScriptsApart cls [] (c :: rest) ↔
    (∀ k, isCjk k = true → (cut cls c rest).1.count (String.ofList [k]) = taken.count k) ∧
      ScriptsApart cls [] (cut cls c rest).2
  alone : ScriptsApart cls [] (c :: rest) → ∀ k ∈ taken, isCjk k = true →
    taken = [k] ∧ (cut cls c rest).1 = cjkTerms k rest.head?

theorem count_cjkTerms (c : Char) (next : Option Char) (k : Char) :
    (cjkTerms c next).count (String.ofList [k]) = [c].count k := by
  have hpair : ∀ d, String.ofList [c, d] ≠ String.ofList [k] := by
    intro d h
    exact absurd (String.ofList_injective h) (by simp)
  have hsingle : (String.ofList [c] == String.ofList [k]) = (c == k) := by
    rw [Bool.eq_iff_iff, beq_iff_eq, beq_iff_eq, String.ofList_inj, List.cons.injEq]
    exact and_iff_left rfl
  cases next with
  | none => rw [cjkTerms, List.count_singleton, List.count_singleton, hsingle]
  | some d =>
    rw [cjkTerms]
    split
    · rw [List.count_cons_of_ne (hpair d), List.count_singleton, List.count_singleton, hsingle]
    · rw [List.count_singleton, List.count_singleton, hsingle]

/-- A term with a character that is not CJK is not a CJK character. -/
theorem count_other {cs : List Char} {d k : Char} (hd : d ∈ cs) (hdcjk : isCjk d = false)
    (hk : isCjk k = true) : [String.ofList cs].count (String.ofList [k]) = 0 := by
  refine List.count_eq_zero_of_not_mem fun hmem => ?_
  have hcs : [k] = cs := String.ofList_injective (List.mem_singleton.mp hmem)
  rw [← hcs, List.mem_singleton] at hd
  rw [hd, hk] at hdcjk
  exact absurd hdcjk (by simp)

section Rounds
variable {cls}

theorem terms_cons (c : Char) (rest : List Char) :
    terms cls (c :: rest) = (cut cls c rest).1 ++ terms cls (cut cls c rest).2 :=
  scanAll_cons (cut_shortens cls) c rest

/-- A round whose terms are no CJK characters. -/
theorem took_of_cut {c : Char} {rest taken left : List Char} {ts : List String}
    (hcut : cut cls c rest = (ts, left)) (hsplit : c :: rest = taken ++ left)
    (hcount : ∀ k, isCjk k = true → ts.count (String.ofList [k]) = 0)
    (hapart : ScriptsApart cls [] (c :: rest) ↔
      (∀ k, isCjk k = true → k ∉ taken) ∧ ScriptsApart cls [] left) :
    Took cls c rest taken := by
  refine ⟨?_, ?_, ?_, ?_⟩
  · rw [hcut]
    exact hsplit
  · intro k hk
    rw [hcut, hcount k hk]
    exact Nat.zero_le _
  · rw [hapart, hcut]
    refine and_congr_left fun _ => forall₂_congr fun k hk => ?_
    rw [hcount k hk, eq_comm, List.count_eq_zero]
  · intro h k hmem hk
    exact absurd hmem ((hapart.mp h).1 k hk)

theorem took_skip {c : Char} (rest : List Char) (hcjk : isCjk c = false)
    (halpha : cls.isAlphabetic c = false) (hnum : cls.isNumeric c = false) :
    Took cls c rest [c] := by
  have hfree : ∀ k, isCjk k = true → k ∉ [c] := by
    intro k hk hmem
    rw [List.mem_singleton.mp hmem, hcjk] at hk
    exact absurd hk (by simp)
  have hends : ¬ EndsInNumber cls [c] := by
    rw [endsInNumber_cons, hnum]
    simp
  refine took_of_cut (cut_skip rest hcjk halpha hnum) rfl (fun _ _ => rfl) ?_
  rw [apart_cons, apart_congr (iff_of_false hends not_endsInNumber_nil)]
  refine and_congr_left fun _ => iff_of_true ?_ hfree
  exact fun _ _ _ halpha' => absurd halpha' (by simp [halpha])

variable (htables : CjkTables cls)
include htables

theorem took_cjk {c : Char} (rest : List Char) (hcjk : isCjk c = true) :
    Took cls c rest [c] where
  split := by rw [cut_cjk rest hcjk]; rfl
  count_le := fun k _ => by rw [cut_cjk rest hcjk, count_cjkTerms]
  apart := by
    have hends : ¬ EndsInNumber cls [c] := by
      rw [endsInNumber_cons, htables.notNumeric c hcjk]
      simp
    rw [cut_cjk rest hcjk, apart_cons,
      apart_congr (iff_of_false hends not_endsInNumber_nil)]
    refine and_congr_left fun _ => iff_of_true ?_ ?_
    · exact fun k _ hcjk' => absurd hcjk (by simp [hcjk'])
    · exact fun k _ => count_cjkTerms c _ k
  alone := by
    intro _ k hk _
    obtain rfl := List.mem_singleton.mp hk
    rw [cut_cjk rest hcjk]
    exact ⟨rfl, rfl⟩

theorem took_word {c : Char} (rest : List Char) (hcjk : isCjk c = false)
    (halpha : cls.isAlphabetic c = true) :
    Took cls c rest (c :: rest.takeWhile cls.isAlphabetic) := by
  have hcut : cut cls c rest = ([word cls (c :: rest)], rest.dropWhile cls.isAlphabetic) := by
    rw [cut_word rest hcjk halpha, List.dropWhile_cons_of_pos halpha]
  have hsplit : c :: rest =
      c :: (rest.takeWhile cls.isAlphabetic ++ rest.dropWhile cls.isAlphabetic) := by
    rw [List.takeWhile_append_dropWhile]
  have hcount : ∀ k, isCjk k = true →
      [word cls (c :: rest)].count (String.ofList [k]) = 0 := by
    intro k hk
    obtain ⟨d, hd, hdcjk⟩ := htables.lowercase c hcjk
    refine count_other (List.mem_flatMap.mpr ⟨c, ?_, hd⟩) hdcjk hk
    rw [List.takeWhile_cons_of_pos halpha]
    exact List.mem_cons_self
  have hword : ∀ d ∈ c :: rest.takeWhile cls.isAlphabetic, cls.isAlphabetic d = true := by
    intro d hd
    rcases List.mem_cons.mp hd with rfl | hd
    · exact halpha
    · exact List.mem_takeWhile_imp hd
  have hfree : (∀ k ∈ rest.takeWhile cls.isAlphabetic, isCjk k = false) ↔
      ∀ k, isCjk k = true → k ∉ c :: rest.takeWhile cls.isAlphabetic := by
    constructor
    · intro hw k hk hmem
      rcases List.mem_cons.mp hmem with rfl | hmem
      · exact absurd hk (by simp [hcjk])
      · exact absurd hk (by simp [hw k hmem])
    · intro hnone k hmem
      by_contra hk
      exact hnone k (by simpa using hk) (List.mem_cons_of_mem c hmem)
  refine took_of_cut hcut hsplit hcount ?_
  rw [← hfree, ← apart_word hword (fun _ => stops_of_head?_dropWhile) not_endsInNumber_nil hcjk,
    ← hsplit]

theorem took_number {c : Char} (rest : List Char) (hcjk : isCjk c = false)
    (halpha : cls.isAlphabetic c = false) (hnum : cls.isNumeric c = true) :
    Took cls c rest (c :: rest.takeWhile cls.isNumeric) := by
  have hcut : cut cls c rest = ([String.ofList (c :: rest.takeWhile cls.isNumeric)],
      rest.dropWhile cls.isNumeric) := by
    rw [cut_number rest hcjk halpha hnum, List.dropWhile_cons_of_pos hnum,
      List.takeWhile_cons_of_pos hnum]
  have hfree : ∀ k, isCjk k = true → k ∉ c :: rest.takeWhile cls.isNumeric := by
    intro k hk hmem
    rcases List.mem_cons.mp hmem with rfl | hmem
    · exact absurd hk (by simp [hcjk])
    · exact absurd (List.mem_takeWhile_imp hmem) (by simp [htables.notNumeric k hk])
  have hcount : ∀ k, isCjk k = true →
      [String.ofList (c :: rest.takeWhile cls.isNumeric)].count (String.ofList [k]) = 0 :=
    fun k hk => count_other List.mem_cons_self hcjk hk
  have hends : EndsInNumber cls [c] := endsInNumber_cons.mpr ⟨hnum, Or.inl halpha⟩
  refine took_of_cut hcut ?_ hcount ?_
  · rw [List.cons_append, List.takeWhile_append_dropWhile]
  · rw [and_iff_right hfree, apart_cons, ← apart_number (fun d => List.mem_takeWhile_imp)
      (fun _ => stops_of_head?_dropWhile) hends, List.takeWhile_append_dropWhile]
    exact and_iff_right fun _ _ _ halpha' => absurd halpha' (by simp [halpha])

theorem exists_took (c : Char) (rest : List Char) : ∃ taken, Took cls c rest taken := by
  cases start_cases cls c with
  | cjk hcjk => exact ⟨_, took_cjk htables rest hcjk⟩
  | word hcjk halpha => exact ⟨_, took_word htables rest hcjk halpha⟩
  | number hcjk halpha hnum => exact ⟨_, took_number htables rest hcjk halpha hnum⟩
  | skip hcjk halpha hnum => exact ⟨_, took_skip rest hcjk halpha hnum⟩

/-- No CJK character is a term more often than it occurs. -/
theorem count_terms_le {k : Char} (hk : isCjk k = true) (cs : List Char) :
    (terms cls cs).count (String.ofList [k]) ≤ cs.count k := by
  induction cs using rounds_induction (cut_shortens cls) with
  | nil => exact Nat.zero_le _
  | cons c rest ih =>
    obtain ⟨taken, htook⟩ := exists_took htables c rest
    rw [terms_cons, htook.split, List.count_append, List.count_append]
    exact Nat.add_le_add (htook.count_le k hk) ih

theorem count_terms_iff (cs : List Char) :
    (∀ k, isCjk k = true → (terms cls cs).count (String.ofList [k]) = cs.count k) ↔
      ScriptsApart cls [] cs := by
  induction cs using rounds_induction (cut_shortens cls) with
  | nil => exact iff_of_true (fun _ _ => rfl) apart_nil
  | cons c rest ih =>
    obtain ⟨taken, htook⟩ := exists_took htables c rest
    rw [htook.apart, ← ih, ← forall₂_and]
    refine forall₂_congr fun k hk => ?_
    have htaken := htook.count_le k hk
    have hleft := count_terms_le htables hk (cut cls c rest).2
    rw [terms_cons, htook.split, List.count_append, List.count_append]
    omega

theorem bigram_terms (cs : List Char) (hapart : ScriptsApart cls [] cs) :
    ∀ pre c d post, cs = pre ++ c :: d :: post → isCjk c = true → isCjk d = true →
      String.ofList [c, d] ∈ terms cls cs := by
  induction cs using rounds_induction (cut_shortens cls) with
  | nil => exact fun pre c d post h => absurd h (by simp)
  | cons e rest ih =>
    intro pre c d post hsplit hc hd
    obtain ⟨taken, htook⟩ := exists_took htables e rest
    rw [terms_cons, List.mem_append]
    rcases List.append_eq_append_iff.mp (hsplit.symm.trans htook.split) with
      ⟨more, htaken, hleft⟩ | ⟨pre', _, hleft⟩
    · cases more with
      | nil => exact Or.inr (ih (htook.apart.mp hapart).2 [] c d post hleft.symm hc hd)
      | cons c' more =>
        obtain rfl : c = c' := (List.cons.inj hleft).1
        have hmem : c ∈ taken := by rw [htaken]; simp
        obtain ⟨hone, hterms⟩ := htook.alone hapart c hmem hc
        -- the round takes `c` alone, so nothing stands before it
        have hpre : pre = [] := by
          rw [hone] at htaken
          cases pre with
          | nil => rfl
          | cons b pre => exact absurd (congrArg List.length htaken) (by simp)
        rw [hpre] at hsplit
        obtain ⟨rfl, hrest⟩ := List.cons.inj hsplit
        refine Or.inl ?_
        rw [hterms, hrest, List.head?_cons, cjkTerms, if_pos hd]
        exact List.mem_cons_self
    · exact Or.inr (ih (htook.apart.mp hapart).2 pre' c d post hleft hc hd)

end Rounds

theorem terms_tokenize (text : String) :
    (tokenize cls text).map Token.term = terms cls text.toList := by
  have hnumber : ∀ (ts : List String) (pos : UInt32), (number pos ts).map Token.term = ts := by
    intro ts
    induction ts with
    | nil => exact fun _ => rfl
    | cons t ts ih => exact fun pos => congrArg (t :: ·) (ih (pos + 1))
  rw [tokenize_eq, hnumber]

variable {cls} in
/-- **Every CJK character and bigram is indexed** exactly in the texts in which no CJK letter
directly follows another letter, unless that one ends a number. -/
theorem cjk_indexed_iff (htables : CjkTables cls) (text : String) :
    CjkIndexed cls text ↔ ScriptsApart cls [] text.toList := by
  constructor
  · intro hindexed
    have hsingle := hindexed.single
    rw [terms_tokenize] at hsingle
    exact (count_terms_iff htables text.toList).mp hsingle
  · intro hapart
    constructor
    · rw [terms_tokenize]
      exact (count_terms_iff htables text.toList).mpr hapart
    · rw [terms_tokenize]
      exact bigram_terms htables text.toList hapart

theorem le_of_isCjk {c : Char} (h : isCjk c = true) : 0x3040 ≤ c.val.toNat := by
  simp only [isCjk, Bool.or_eq_true, Bool.and_eq_true, decide_eq_true_eq, UInt32.le_iff_toNat_le,
    UInt32.reduceToNat] at h
  omega

theorem mixedClasses_tables : CjkTables mixedClasses where
  notNumeric := by
    intro c hc
    have hle := le_of_isCjk hc
    change (48 ≤ c.val && c.val ≤ 57) = false
    simp only [Bool.and_eq_false_iff, decide_eq_false_iff_not, UInt32.le_iff_toNat_le,
      UInt32.reduceToNat]
    omega
  lowercase := by
    intro c hc
    refine ⟨c.toLower, List.mem_singleton_self _, ?_⟩
    unfold Char.toLower
    split
    · rename_i hupper
      by_contra hcjk
      have hle := le_of_isCjk (by simpa using hcjk)
      have hval : c.val.toNat ≤ 90 := hupper.2
      change 0x3040 ≤ (c.val + 32).toNat at hle
      rw [UInt32.toNat_add] at hle
      change 0x3040 ≤ (c.val.toNat + 32) % 2 ^ 32 at hle
      omega
    · exact hc

theorem cjk_indexed_iff_mixed : CjkIndexed mixedClasses "Rust 無鎖" :=
  (cjk_indexed_iff mixedClasses_tables _).mpr (by decide)

/-- Directly after a Latin letter the first CJK character is lost. -/
theorem word_swallows_cjk :
    ¬ ∀ cls : CharClasses, CjkTables cls →
      (∀ c, c.isAlpha = true ∨ isCjk c = true → cls.isAlphabetic c = true) →
      ∀ text, CjkIndexed cls text := by
  intro h
  have hletters : ∀ c, c.isAlpha = true ∨ isCjk c = true →
      mixedClasses.isAlphabetic c = true := by
    intro c hc
    simpa [mixedClasses] using hc
  have hindexed := h mixedClasses mixedClasses_tables hletters "Rust無鎖"
  exact absurd (hindexed.single '無' (by decide)) (by decide)

end CjkAnalyzer
end LightGraph
