import LightGraph.Proof.Tokenizer

/-!
# A text and its terms

Nothing but separators and case is lost. The bigrams aside, which say the characters around them
once more, the terms of a text put together are the text without its separators, up to case
(`terms_keep_text`): every letter, digit and CJK character is in exactly one term, and they are in
the order of the text. A term that begins with a letter is in lower case, one that begins with a
digit is as it was.

So a query of CJK characters finds the texts it is part of: in one whose scripts are apart, each of
its terms is a term of the text (`cjk_part_found`).
-/

set_option autoImplicit false

namespace LightGraph

open Lib

namespace CjkAnalyzer
variable (cls : CharClasses)

/-- What goes into a term. -/
def kept (c : Char) : Bool := isCjk c || cls.isAlphabetic c || cls.isNumeric c

def lowered (cs : List Char) : List Char := cs.flatMap cls.toLowercase

/-- Two CJK characters. -/
def isBigram (t : String) : Bool := t.toList.length == 2 && t.toList.all isCjk

/-- The characters of the terms, without the bigrams. -/
def spelled (ts : List String) : List Char :=
  (ts.filter fun t => !isBigram t).flatMap String.toList

/-- What is in lower case stays as it is. -/
def LowerTables : Prop := ∀ c, ∀ d ∈ cls.toLowercase c, cls.toLowercase d = [d]

section Spelled
variable {cls}

theorem lowered_append (cs ds : List Char) :
    lowered cls (cs ++ ds) = lowered cls cs ++ lowered cls ds := List.flatMap_append

theorem lowered_lowered (hlower : LowerTables cls) (cs : List Char) :
    lowered cls (lowered cls cs) = lowered cls cs := by
  have hsame : ∀ ds : List Char, (∀ d ∈ ds, cls.toLowercase d = [d]) → lowered cls ds = ds := by
    intro ds h
    induction ds with
    | nil => rfl
    | cons d ds ih =>
      rw [lowered, List.flatMap_cons, h d List.mem_cons_self]
      exact congrArg (d :: ·) (ih fun e he => h e (List.mem_cons_of_mem d he))
  apply hsame
  intro d hd
  obtain ⟨c, -, hd⟩ := List.mem_flatMap.mp hd
  exact hlower c d hd

theorem spelled_append (ts us : List String) : spelled (ts ++ us) = spelled ts ++ spelled us := by
  rw [spelled, List.filter_append, List.flatMap_append]
  rfl

/-- A bigram says nothing new. -/
theorem spelled_bigram {c d : Char} (hc : isCjk c = true) (hd : isCjk d = true)
    (ts : List String) : spelled (String.ofList [c, d] :: ts) = spelled ts := by
  have hbigram : (!isBigram (String.ofList [c, d])) = false := by
    rw [isBigram, String.toList_ofList, List.all_cons, List.all_cons, hc, hd]
    rfl
  rw [spelled, List.filter_cons_of_neg (by rw [hbigram]; exact Bool.false_ne_true)]
  rfl

/-- Any other term is its characters. -/
theorem spelled_other {cs : List Char} (h : isBigram (String.ofList cs) = false)
    (ts : List String) : spelled (String.ofList cs :: ts) = cs ++ spelled ts := by
  rw [spelled, List.filter_cons_of_pos (by rw [h]; rfl), List.flatMap_cons, String.toList_ofList]
  rfl

theorem isBigram_of_mem {cs : List Char} {d : Char} (hd : d ∈ cs) (hcjk : isCjk d = false) :
    isBigram (String.ofList cs) = false := by
  have hall : cs.all isCjk = false := by
    rw [List.all_eq_false]
    exact ⟨d, hd, by rw [hcjk]; exact Bool.false_ne_true⟩
  rw [isBigram, String.toList_ofList, hall, Bool.and_false]

theorem spelled_cjkTerms {c : Char} (hc : isCjk c = true) (next : Option Char) :
    spelled (cjkTerms c next) = [c] := by
  have hsingle : spelled [String.ofList [c]] = [c] := by
    rw [spelled_other]
    · rfl
    · rw [isBigram, String.toList_ofList]
      rfl
  cases next with
  | none => exact hsingle
  | some d =>
    rw [cjkTerms]
    cases hd : isCjk d with
    | true =>
      rw [if_pos rfl, spelled_bigram hc hd]
      exact hsingle
    | false =>
      rw [if_neg Bool.false_ne_true]
      exact hsingle

/-! ## One round -/

variable (htables : CjkTables cls) (hlower : LowerTables cls)
include htables hlower

/-- What a round takes, it spells, separators aside. -/
theorem spelled_cut (c : Char) (rest : List Char) :
    lowered cls ((c :: rest).filter (kept cls)) = lowered cls (spelled (cut cls c rest).1)
      ++ lowered cls ((cut cls c rest).2.filter (kept cls)) := by
  cases start_cases cls c with
  | cjk hcjk =>
    have hkept : kept cls c = true := by rw [kept, hcjk]; rfl
    rw [cut_cjk rest hcjk, spelled_cjkTerms hcjk, List.filter_cons_of_pos hkept, ← lowered_append]
    rfl
  | word hcjk halpha =>
    -- the word begins with `c`, whose lower case is not CJK
    have hbigram : isBigram (word cls (c :: rest)) = false := by
      obtain ⟨d, hd, hdcjk⟩ := htables.lowercase c hcjk
      refine isBigram_of_mem (List.mem_flatMap.mpr ⟨c, ?_, hd⟩) hdcjk
      rw [List.takeWhile_cons_of_pos halpha]
      exact List.mem_cons_self
    have hspelled : spelled [word cls (c :: rest)]
        = lowered cls ((c :: rest).takeWhile cls.isAlphabetic) := by
      rw [word, spelled_other hbigram]
      exact List.append_nil _
    have hkept : ((c :: rest).takeWhile cls.isAlphabetic).filter (kept cls)
        = (c :: rest).takeWhile cls.isAlphabetic := by
      refine List.filter_eq_self.mpr fun d hd => ?_
      rw [kept, List.mem_takeWhile_imp hd, Bool.or_true, Bool.true_or]
    have hsplit : (c :: rest).filter (kept cls) = (c :: rest).takeWhile cls.isAlphabetic
        ++ ((c :: rest).dropWhile cls.isAlphabetic).filter (kept cls) := by
      rw [← hkept, ← List.filter_append, List.takeWhile_append_dropWhile]
    rw [cut_word rest hcjk halpha, hspelled, lowered_lowered hlower, ← lowered_append, hsplit]
  | number hcjk halpha hnum =>
    have hspelled : spelled [String.ofList ((c :: rest).takeWhile cls.isNumeric)]
        = (c :: rest).takeWhile cls.isNumeric := by
      have hmem : c ∈ (c :: rest).takeWhile cls.isNumeric := by
        rw [List.takeWhile_cons_of_pos hnum]
        exact List.mem_cons_self
      rw [spelled_other (isBigram_of_mem hmem hcjk)]
      exact List.append_nil _
    have hkept : ((c :: rest).takeWhile cls.isNumeric).filter (kept cls)
        = (c :: rest).takeWhile cls.isNumeric := by
      refine List.filter_eq_self.mpr fun d hd => ?_
      rw [kept, List.mem_takeWhile_imp hd, Bool.or_true]
    have hsplit : (c :: rest).filter (kept cls) = (c :: rest).takeWhile cls.isNumeric
        ++ ((c :: rest).dropWhile cls.isNumeric).filter (kept cls) := by
      rw [← hkept, ← List.filter_append, List.takeWhile_append_dropWhile]
    rw [cut_number rest hcjk halpha hnum, hspelled, ← lowered_append, hsplit]
  | skip hcjk halpha hnum =>
    have hkept : kept cls c = false := by rw [kept, hcjk, halpha, hnum]; rfl
    rw [cut_skip rest hcjk halpha hnum,
      List.filter_cons_of_neg (by rw [hkept]; exact Bool.false_ne_true)]
    rfl

theorem spelled_terms (cs : List Char) :
    lowered cls (spelled (terms cls cs)) = lowered cls (cs.filter (kept cls)) := by
  induction cs using rounds_induction (cut_shortens cls) with
  | nil => rfl
  | cons c rest ih =>
    rw [terms_cons, spelled_append, lowered_append, ih, ← spelled_cut htables hlower]

/-- **The terms keep the text.** Without the bigrams they spell what is in the text besides
separators, in the order it is in there, but for the case of the letters. -/
theorem terms_keep_text (text : String) :
    lowered cls (spelled ((tokenize cls text).map Token.term))
      = lowered cls (text.toList.filter (kept cls)) := by
  rw [terms_tokenize]
  exact spelled_terms htables hlower text.toList

end Spelled

/-! ## A part of a text -/

section Part
variable {cls}

/-- The terms of CJK characters alone. -/
theorem mem_terms_cjk {cs : List Char} (hcjk : ∀ c ∈ cs, isCjk c = true) {t : String}
    (ht : t ∈ terms cls cs) :
    (∃ c ∈ cs, t = String.ofList [c]) ∨
      ∃ pre c d post, cs = pre ++ c :: d :: post ∧ t = String.ofList [c, d] := by
  induction cs with
  | nil => exact absurd ht List.not_mem_nil
  | cons c rest ih =>
    have hc := hcjk c List.mem_cons_self
    rw [terms_cons, cut_cjk rest hc, List.mem_append] at ht
    rcases ht with ht | ht
    · cases rest with
      | nil =>
        obtain rfl := List.mem_singleton.mp ht
        exact Or.inl ⟨c, List.mem_cons_self, rfl⟩
      | cons d rest =>
        have hd := hcjk d (List.mem_cons_of_mem c List.mem_cons_self)
        rw [List.head?_cons, cjkTerms, if_pos hd] at ht
        rcases List.mem_cons.mp ht with rfl | ht
        · exact Or.inr ⟨[], c, d, rest, rfl, rfl⟩
        · obtain rfl := List.mem_singleton.mp ht
          exact Or.inl ⟨c, List.mem_cons_self, rfl⟩
    · rcases ih (fun d hd => hcjk d (List.mem_cons_of_mem c hd)) ht with
        ⟨d, hd, rfl⟩ | ⟨pre, d, e, post, hsplit, rfl⟩
      · exact Or.inl ⟨d, List.mem_cons_of_mem c hd, rfl⟩
      · exact Or.inr ⟨c :: pre, d, e, post, by rw [hsplit, List.cons_append], rfl⟩

/-- **A part in CJK is found**: in a text whose scripts are apart, every term of the part is a term
of the text. -/
theorem cjk_part_found (htables : CjkTables cls) {a q b : String}
    (hcjk : ∀ c ∈ q.toList, isCjk c = true)
    (hapart : ScriptsApart cls [] (a ++ q ++ b).toList) :
    ∀ t ∈ (tokenize cls q).map Token.term, t ∈ (tokenize cls (a ++ q ++ b)).map Token.term := by
  intro t ht
  rw [terms_tokenize] at ht ⊢
  have htext : (a ++ q ++ b).toList = a.toList ++ q.toList ++ b.toList := by simp
  rw [htext] at hapart ⊢
  rcases mem_terms_cjk hcjk ht with ⟨c, hc, rfl⟩ | ⟨pre, c, d, post, hsplit, rfl⟩
  · have hcount := (count_terms_iff htables _).mpr hapart c (hcjk c hc)
    rw [← List.count_pos_iff, hcount, List.count_pos_iff]
    exact List.mem_append_left _ (List.mem_append_right _ hc)
  · have hpart : a.toList ++ q.toList ++ b.toList
        = (a.toList ++ pre) ++ c :: d :: (post ++ b.toList) := by
      rw [hsplit]
      simp
    have hmem : ∀ e ∈ [c, d], isCjk e = true := fun e he => hcjk e (by
      rw [hsplit]
      exact List.mem_append_right _ (List.mem_append_left post he))
    exact bigram_terms htables _ hapart _ c d _ hpart (hmem c (by simp)) (hmem d (by simp))

end Part

/-! ## Latin and CJK -/

theorem mixedClasses_lower : LowerTables mixedClasses := by
  intro c d hd
  obtain rfl := List.mem_singleton.mp hd
  have hnot : ¬ (c.toLower.val ≥ 'A'.val ∧ c.toLower.val ≤ 'Z'.val) := by
    unfold Char.toLower
    split
    · rename_i hupper
      have hlo : 65 ≤ c.val.toNat := hupper.1
      have hhi : c.val.toNat ≤ 90 := hupper.2
      intro h
      have hle : (c.val + 32).toNat ≤ 90 := h.2
      rw [UInt32.toNat_add] at hle
      change (c.val.toNat + 32) % 2 ^ 32 ≤ 90 at hle
      omega
    · rename_i hupper
      exact hupper
  show [c.toLower.toLower] = [c.toLower]
  rw [show c.toLower.toLower = c.toLower from dif_neg hnot]

theorem terms_keep_text_mixed :
    lowered mixedClasses (spelled ((tokenize mixedClasses "Rust 無鎖!").map Token.term))
      = lowered mixedClasses ("Rust 無鎖!".toList.filter (kept mixedClasses)) :=
  terms_keep_text mixedClasses_tables mixedClasses_lower _

theorem cjk_part_found_mixed :
    "無鎖" ∈ (tokenize mixedClasses ("Rust " ++ "無鎖" ++ "圖")).map Token.term :=
  cjk_part_found mixedClasses_tables (List.all_eq_true.mp rfl) (by decide) "無鎖" (by decide)

end CjkAnalyzer
end LightGraph
