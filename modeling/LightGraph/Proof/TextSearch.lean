import LightGraph.Lib.Best
import LightGraph.Index.Fulltext

/-!
# What a text search returns

A search goes token by token and, for each, over the nodes of a posting list, adding to a map of
scores. Read per node it is simpler: a node's score is what the tokens contribute, added up in their
order (`scoreOf`), and it is found if any contributes.

The sort at the end takes scores of which some may be no numbers. A single find is never compared,
so its score may be anything; of several, one that is no number is a panic (`search_eq_none_iff`).
Otherwise the finds are ranked, and the order in which lists and maps are gone through leaves no
trace except among equal scores (`search_ranks`).
-/

set_option autoImplicit false

namespace LightGraph

open Lib
open scoped List

/-! ## Bitmaps and sorts -/

/-- The nodes of a bitmap. -/
def nodeIds (bm : RoaringBitmap) : Finset NodeId := bm.image UInt32.toUInt64

theorem toUInt64_injective : Function.Injective UInt32.toUInt64 := by
  intro x y h
  have hback := congrArg UInt64.toUInt32 h
  rwa [UInt32.toUInt32_toUInt64, UInt32.toUInt32_toUInt64] at hback

theorem nodeIds_injective : Function.Injective nodeIds :=
  Finset.image_injective toUInt64_injective

theorem nodeIds_union (a b : RoaringBitmap) : nodeIds (a ∪ b) = nodeIds a ∪ nodeIds b :=
  Finset.image_union a b

theorem card_nodeIds (bm : RoaringBitmap) : (nodeIds bm).card = bm.card :=
  Finset.card_image_of_injective bm toUInt64_injective

theorem toFinset_iter (bm : RoaringBitmap) :
    ((RoaringBitmap.iter bm).map UInt32.toUInt64).toFinset = nodeIds bm := by
  ext id
  simp only [RoaringBitmap.iter, List.mem_toFinset, List.mem_map, Finset.mem_sort, nodeIds,
    Finset.mem_image]

/-- Cutting found nodes down to a bitmap. -/
theorem filter_nodeIds (found filter : RoaringBitmap) :
    (nodeIds found).filter (fun id => id.toUInt32 ∈ filter) = nodeIds (found ∩ filter) := by
  rw [nodeIds, Finset.filter_image, nodeIds, ← Finset.filter_mem_eq_inter]
  simp only [UInt32.toUInt32_toUInt64]

theorem Score.not_isNan_of_lt {α : Type} [Score α] [LawfulScore α] {a b : α}
    (h : Score.Lt a b) : ¬ Score.IsNan b := by
  obtain ⟨β, _, key, hkey⟩ :=
    (LawfulScore.partialCmp_by_key : ByKey (Score.partialCmp : α → α → Option Ordering))
  intro hnan
  have hnone : Score.partialCmp a b = none := hkey.eq_none_iff.mpr (Or.inr (hkey.self_iff.mp hnan))
  cases hnone.symm.trans h

theorem Score.not_lt_self {α : Type} [Score α] [LawfulScore α] (a : α) : ¬ Score.Lt a a := by
  obtain ⟨β, _, key, hkey⟩ :=
    (LawfulScore.partialCmp_by_key : ByKey (Score.partialCmp : α → α → Option Ordering))
  intro hlt
  have hcmp := (hkey a a).symm.trans hlt
  cases hx : key a with
  | none => simp [hx, compareKeys] at hcmp
  | some x => simp [hx, compareKeys] at hcmp

section Sorting
variable {β γ : Type} [Score γ] [LawfulScore γ] {score : β → γ} {l l' : List β}

theorem byKey_descending (score : β → γ) :
    ByKey fun a b => Score.partialCmp (score b) (score a) := by
  have hkey : ByKey (Score.partialCmp : γ → γ → Option Ordering) := LawfulScore.partialCmp_by_key
  exact hkey.reverse score

theorem sortDescending_eq_none_iff :
    sortDescending score l = none ↔ 2 ≤ l.length ∧ ∃ a ∈ l, Score.IsNan (score a) :=
  sortBy_eq_none_iff (byKey_descending score)

theorem ordered_sortDescending (h : sortDescending score l = some l') :
    l'.Pairwise fun a b => Score.Le (score b) (score a) :=
  ordered_sortBy (byKey_descending score) h

end Sorting

section Scores
variable {α : Type} {cls : CharClasses}

/-! ## What a search finds -/

namespace FullTextIndex

/-- The posting list of a token's term. -/
def posting (ft : FullTextIndex α) (fst : FiniteMap Bytes UInt64) (token : Token) :
    RoaringBitmap :=
  match fst.get (utf8Bytes token.term) with
  | none => ∅
  | some ordinal => (ft.postings[ordinal.toNat]?).getD ∅

def postingsOf (ft : FullTextIndex α) (fst : FiniteMap Bytes UInt64) (tokens : List Token) :
    RoaringBitmap :=
  tokens.foldr (fun token bm => ft.posting fst token ∪ bm) ∅

/-- The nodes that have some token of the query. -/
def matched (cls : CharClasses) (ft : FullTextIndex α) (query : String) : RoaringBitmap :=
  match ft.fst with
  | none => ∅
  | some fst => ft.postingsOf fst (CjkAnalyzer.tokenize cls query)

/-- The numbers the dictionary gives for the tokens are numbers of posting lists. -/
def InRange (ft : FullTextIndex α) (fst : FiniteMap Bytes UInt64) (tokens : List Token) : Prop :=
  ∀ token ∈ tokens, ∀ ordinal, fst.get (utf8Bytes token.term) = some ordinal →
    ordinal.toNat < ft.postings.length

def Answers (cls : CharClasses) (ft : FullTextIndex α) (query : String) : Prop :=
  ∀ fst, ft.fst = some fst → ft.InRange fst (CjkAnalyzer.tokenize cls query)

theorem postingsOf_unknown {ft : FullTextIndex α} {fst : FiniteMap Bytes UInt64} {token : Token}
    (h : fst.get (utf8Bytes token.term) = none) (tokens : List Token) :
    ft.postingsOf fst (token :: tokens) = ft.postingsOf fst tokens := by
  simp only [postingsOf, List.foldr_cons, posting, h, Finset.empty_union]

theorem postingsOf_known {ft : FullTextIndex α} {fst : FiniteMap Bytes UInt64} {token : Token}
    {ordinal : UInt64} {bm : RoaringBitmap} (h : fst.get (utf8Bytes token.term) = some ordinal)
    (hbm : ft.postings[ordinal.toNat]? = some bm) (tokens : List Token) :
    ft.postingsOf fst (token :: tokens) = bm ∪ ft.postingsOf fst tokens := by
  simp only [postingsOf, List.foldr_cons, posting, h, hbm, Option.getD_some]

variable [Score α]

theorem keys_addScore (scores : FiniteMap NodeId α) (id : NodeId) (score : α) :
    (addScore scores id score).keys = insert id scores.keys := FiniteMap.keys_put _ _ _

theorem scoreTokens_spec (ln : α → α) {ft : FullTextIndex α} {fst : FiniteMap Bytes UInt64}
    (tokens : List Token) : ∀ results : FiniteMap NodeId α, ft.InRange fst tokens →
    ∃ results', ft.scoreTokens ln fst tokens results = some results' ∧
      results'.keys = nodeIds (ft.postingsOf fst tokens) ∪ results.keys := by
  induction tokens with
  | nil => exact fun results _ => ⟨results, rfl, (Finset.empty_union _).symm⟩
  | cons token tokens ih =>
    intro results hrange
    have hrest : ft.InRange fst tokens := fun u hu => hrange u (List.mem_cons_of_mem token hu)
    rw [scoreTokens]
    cases hterm : fst.get (utf8Bytes token.term) with
    | none =>
      rw [postingsOf_unknown hterm]
      exact ih results hrest
    | some ordinal =>
      have hlt := hrange token List.mem_cons_self ordinal hterm
      have hget : ft.postings[ordinal.toNat]? = some ft.postings[ordinal.toNat] :=
        List.getElem?_eq_getElem hlt
      simp only [hget]
      obtain ⟨results', hrun, hkeys⟩ := ih _ hrest
      refine ⟨results', hrun, hkeys.trans ?_⟩
      rw [FiniteMap.keys_foldl (fun m id => keys_addScore m id.toUInt64 _), toFinset_iter,
        postingsOf_known hterm hget, nodeIds_union, Finset.union_left_comm, Finset.union_assoc]

theorem scoreTokens_eq_none (ln : α → α) {ft : FullTextIndex α} {fst : FiniteMap Bytes UInt64}
    (tokens : List Token) : ∀ results : FiniteMap NodeId α, ¬ ft.InRange fst tokens →
    ft.scoreTokens ln fst tokens results = none := by
  induction tokens with
  | nil => exact fun _ hrange => absurd (fun _ ht => absurd ht List.not_mem_nil) hrange
  | cons token tokens ih =>
    intro results hrange
    rw [scoreTokens]
    cases hterm : fst.get (utf8Bytes token.term) with
    | none =>
      refine ih results fun hrest => hrange fun u hu ordinal hget => ?_
      rcases List.mem_cons.mp hu with rfl | hu
      · exact absurd (hterm.symm.trans hget) (by simp)
      · exact hrest u hu ordinal hget
    | some ordinal =>
      cases hget : ft.postings[ordinal.toNat]? with
      | none => simp only [hget]
      | some posting =>
        simp only [hget]
        refine ih _ fun hrest => hrange fun u hu ordinal' hget' => ?_
        rcases List.mem_cons.mp hu with rfl | hu
        · obtain rfl := Option.some.inj (hterm.symm.trans hget')
          exact (List.getElem?_eq_some_iff.mp hget).1
        · exact hrest u hu ordinal' hget'

/-! ## The score of a node -/

/-- What a token adds to the score of a node, if the node has its term. -/
def contribution (ln : α → α) (ft : FullTextIndex α) (fst : FiniteMap Bytes UInt64) (id : NodeId)
    (token : Token) : Option α :=
  match fst.get (utf8Bytes token.term) with
  | none => none
  | some ordinal =>
    match ft.postings[ordinal.toNat]? with
    | none => none
    | some posting =>
      if id ∈ nodeIds posting then some (ft.termScore ln ordinal.toNat posting id) else none

/-- The contributions of the tokens, added up in their order. -/
def scoreOf (ln : α → α) (ft : FullTextIndex α) (fst : FiniteMap Bytes UInt64)
    (tokens : List Token) (id : NodeId) : α :=
  (tokens.filterMap (ft.contribution ln fst id)).foldl (· + ·) 0

/-- The score of a node for a query. -/
def score (ln : α → α) (cls : CharClasses) (ft : FullTextIndex α) (query : String)
    (id : NodeId) : α :=
  match ft.fst with
  | none => 0
  | some fst => ft.scoreOf ln fst (CjkAnalyzer.tokenize cls query) id

theorem get_addScore (scores : FiniteMap NodeId α) (id : NodeId) (s : α) (k : NodeId) :
    (addScore scores id s).get k
      = if k = id then some ((scores.get k).getD 0 + s) else scores.get k := by
  rw [addScore, FiniteMap.get_put]
  split
  · rename_i hk
    rw [hk]
  · rfl

/-- The loop over a posting list reaches every node of it once. -/
theorem get_foldl_addScore (score : NodeId → α) (k : NodeId) (ids : List UInt32) :
    ids.Nodup → ∀ results : FiniteMap NodeId α,
      (ids.foldl (fun results id => addScore results id.toUInt64 (score id.toUInt64)) results).get k
        = if k ∈ ids.map UInt32.toUInt64 then some ((results.get k).getD 0 + score k)
          else results.get k := by
  induction ids with
  | nil => exact fun _ _ => rfl
  | cons id ids ih =>
    intro hnodup results
    obtain ⟨hnot, hrest⟩ := List.nodup_cons.mp hnodup
    rw [List.foldl_cons, ih hrest, get_addScore, List.map_cons]
    by_cases hk : k = id.toUInt64
    · subst hk
      have hout : id.toUInt64 ∉ ids.map UInt32.toUInt64 := by
        intro hmem
        obtain ⟨id', hid', heq⟩ := List.mem_map.mp hmem
        exact hnot (toUInt64_injective heq ▸ hid')
      rw [if_neg hout, if_pos rfl, if_pos List.mem_cons_self]
    · rw [if_neg hk]
      simp only [List.mem_cons, hk, false_or]

/-- One token. -/
theorem get_posting (ln : α → α) (ft : FullTextIndex α) (ordinal : Nat) (posting : RoaringBitmap)
    (results : FiniteMap NodeId α) (k : NodeId) :
    ((RoaringBitmap.iter posting).foldl (fun results id =>
        addScore results id.toUInt64 (ft.termScore ln ordinal posting id.toUInt64)) results).get k
      = if k ∈ nodeIds posting then
          some ((results.get k).getD 0 + ft.termScore ln ordinal posting k)
        else results.get k := by
  have hnodup : (RoaringBitmap.iter posting).Nodup := posting.sort_nodup _
  have hmem : k ∈ (RoaringBitmap.iter posting).map UInt32.toUInt64 ↔ k ∈ nodeIds posting := by
    rw [← toFinset_iter, List.mem_toFinset]
  rw [get_foldl_addScore _ k _ hnodup]
  simp only [hmem]

/-- All tokens. -/
theorem scoreTokens_get (ln : α → α) {ft : FullTextIndex α} {fst : FiniteMap Bytes UInt64}
    (tokens : List Token) : ∀ {results results' : FiniteMap NodeId α},
    ft.scoreTokens ln fst tokens results = some results' → ∀ k,
      results'.get k = (tokens.filterMap (ft.contribution ln fst k)).foldl
        (fun score c => some (score.getD 0 + c)) (results.get k) := by
  induction tokens with
  | nil =>
    intro results results' h k
    obtain rfl := Option.some.inj h
    rfl
  | cons token tokens ih =>
    intro results results' h k
    rw [scoreTokens] at h
    rw [List.filterMap_cons, contribution]
    cases hterm : fst.get (utf8Bytes token.term) with
    | none =>
      rw [hterm] at h
      exact ih h k
    | some ordinal =>
      simp only [hterm] at h
      cases hget : ft.postings[ordinal.toNat]? with
      | none =>
        rw [hget] at h
        cases h
      | some posting =>
        simp only [hget] at h
        simp only [hget]
        rw [ih h k, get_posting]
        by_cases hk : k ∈ nodeIds posting
        · rw [if_pos hk, if_pos hk]
          rfl
        · rw [if_neg hk, if_neg hk]

/-- What is added up from nothing. -/
theorem foldl_score (cs : List α) : ∀ o : Option α, cs ≠ [] →
    cs.foldl (fun score c => some (score.getD 0 + c)) o = some (cs.foldl (· + ·) (o.getD 0)) := by
  induction cs with
  | nil => exact fun _ h => absurd rfl h
  | cons c cs ih =>
    intro o _
    cases cs with
    | nil => rfl
    | cons c' cs => exact ih (some (o.getD 0 + c)) (by simp)

/-! ## The search -/

variable (ln : α → α) (order : FiniteMap.IterOrder NodeId α) {ft : FullTextIndex α}
  {query : String}

/-- What is sorted at the end are the scores of the nodes that match. -/
theorem search_scores (h : ft.Answers cls query) :
    ∃ results : FiniteMap NodeId α,
      ft.search cls ln order query = sortDescending Prod.snd (order.entries results) ∧
      ∀ id s, results.get id = some s ↔
        id ∈ nodeIds (ft.matched cls query) ∧ s = ft.score ln cls query id := by
  unfold search matched score
  cases hfst : ft.fst with
  | none =>
    refine ⟨∅, rfl, fun id s => ?_⟩
    rw [FiniteMap.get_empty]
    simp [nodeIds]
  | some fst =>
    obtain ⟨results, hrun, hkeys⟩ := scoreTokens_spec ln _ ∅ (h fst hfst)
    simp only [hrun]
    refine ⟨results, rfl, fun id s => ?_⟩
    have hget := scoreTokens_get ln _ hrun id
    rw [FiniteMap.get_empty] at hget
    rw [← hkeys.trans (Finset.union_empty _), FiniteMap.mem_keys_iff, scoreOf, hget]
    cases hcs : (CjkAnalyzer.tokenize cls query).filterMap (ft.contribution ln fst id) with
    | nil => simp
    | cons c cs =>
      rw [foldl_score (c :: cs) none (by simp), Option.some.injEq]
      exact ⟨fun hs => ⟨⟨_, rfl⟩, hs.symm⟩, fun hs => hs.2.symm⟩

theorem search_eq_none (h : ¬ ft.Answers cls query) : ft.search cls ln order query = none := by
  unfold search
  cases hfst : ft.fst with
  | none => exact absurd (fun fst hget => absurd (hfst.symm.trans hget) (by simp)) h
  | some fst =>
    have hrange : ¬ ft.InRange fst (CjkAnalyzer.tokenize cls query) := by
      intro hrange
      refine h fun fst' hget => ?_
      obtain rfl := Option.some.inj (hfst.symm.trans hget)
      exact hrange
    simp only [scoreTokens_eq_none ln _ _ hrange]

/-- If there are several matches, no one's score is NaN. -/
def Comparable (ln : α → α) (cls : CharClasses) (ft : FullTextIndex α) (query : String) : Prop :=
  2 ≤ (ft.matched cls query).card →
    ∀ id ∈ nodeIds (ft.matched cls query), ¬ Score.IsNan (ft.score ln cls query id)

variable [LawfulScore α]

/-- **When a search panics.** It goes through unless the dictionary numbers a posting list that is
not there, or several nodes match and the score of one is NaN. -/
theorem search_eq_none_iff :
    ft.search cls ln order query = none ↔
      ¬ (ft.Answers cls query ∧ ft.Comparable ln cls query) := by
  by_cases h : ft.Answers cls query
  · obtain ⟨results, hsearch, hget⟩ := search_scores ln order h
    have hkeys : results.keys = nodeIds (ft.matched cls query) := by
      ext id
      rw [FiniteMap.mem_keys_iff]
      exact ⟨fun ⟨s, hs⟩ => ((hget id s).mp hs).1, fun hid => ⟨_, (hget id _).mpr ⟨hid, rfl⟩⟩⟩
    rw [hsearch, sortDescending_eq_none_iff, order.length_entries, hkeys, card_nodeIds,
      and_iff_right h, Comparable, Classical.not_imp]
    refine and_congr_right fun _ => ?_
    simp only [not_forall, not_not]
    constructor
    · rintro ⟨⟨id, s⟩, he, hnan⟩
      obtain ⟨hid, rfl⟩ := (hget id s).mp ((order.mem_entries _ _ _).mp he)
      exact ⟨id, hid, hnan⟩
    · rintro ⟨id, hid, hnan⟩
      exact ⟨(id, _), (order.mem_entries _ _ _).mpr ((hget id _).mpr ⟨hid, rfl⟩), hnan⟩
  · rw [search_eq_none ln order h]
    exact iff_of_true rfl fun hno => h hno.1

theorem exists_search (h : ft.Answers cls query) (hcmp : ft.Comparable ln cls query) :
    ∃ found, ft.search cls ln order query = some found := by
  rw [← Option.ne_none_iff_exists']
  exact fun hnone => (search_eq_none_iff ln order).mp hnone ⟨h, hcmp⟩

/-- What a search returns is a sort of the scores. -/
theorem found_of_search {found : List (NodeId × α)}
    (hfound : ft.search cls ln order query = some found) : (found.map Prod.fst).Nodup ∧
      (found.Pairwise fun a b => Score.Le b.2 a.2) ∧
      ∀ id s, (id, s) ∈ found ↔
        id ∈ nodeIds (ft.matched cls query) ∧ s = ft.score ln cls query id := by
  have h : ft.Answers cls query := by
    by_contra hno
    have hnone := (search_eq_none_iff ln order).mpr fun hboth => hno hboth.1
    cases hnone.symm.trans hfound
  obtain ⟨results, hsearch, hget⟩ := search_scores ln order h
  have hsort := hsearch.symm.trans hfound
  have hperm : found ~ order.entries results := perm_sortBy hsort
  refine ⟨(hperm.map Prod.fst).nodup_iff.mpr (order.nodup results),
    ordered_sortDescending hsort, fun id s => ?_⟩
  rw [hperm.mem_iff, order.mem_entries, hget]

/-- **A search ranks its finds.** Where it goes through it returns every node that has a token of
the query, once, with what the tokens contribute added up, and the higher scores first. -/
theorem search_ranks (h : ft.Answers cls query) (hcmp : ft.Comparable ln cls query) :
    ∃ found, ft.search cls ln order query = some found ∧ (found.map Prod.fst).Nodup ∧
      (found.Pairwise fun a b => Score.Le b.2 a.2) ∧
      ∀ id s, (id, s) ∈ found ↔
        id ∈ nodeIds (ft.matched cls query) ∧ s = ft.score ln cls query id := by
  obtain ⟨found, hfound⟩ := exists_search ln order h hcmp
  exact ⟨found, hfound, found_of_search ln order hfound⟩

theorem mem_postingsOf {α : Type} {ft : FullTextIndex α} {fst : FiniteMap Bytes UInt64}
    {id : NodeId} {tokens : List Token} : id ∈ nodeIds (ft.postingsOf fst tokens) ↔
      ∃ token ∈ tokens, id ∈ nodeIds (ft.posting fst token) := by
  induction tokens with
  | nil => simp [postingsOf, nodeIds]
  | cons token tokens ih =>
    have hunion : nodeIds (ft.postingsOf fst (token :: tokens))
        = nodeIds (ft.posting fst token) ∪ nodeIds (ft.postingsOf fst tokens) :=
      nodeIds_union _ _
    rw [hunion, Finset.mem_union, ih]
    simp

end FullTextIndex
end Scores

/-! ## Texts of no length -/

theorem isNan_iff_isNaN {a : Float32} : Score.IsNan a ↔ a.isNaN = true :=
  Binary32.partialCmp_self_iff

/-- Zero divided by zero. -/
theorem bm25Score_empty (ln : Float32 → Float32) (tf df totalDocs : Float32) :
    (bm25Score ln tf df 0 0 totalDocs).isNaN = true := by
  have hratio : (Score.fraction 75 100 * 0 / 0 : Float32).isNaN = true := rfl
  have hnorm := Binary32.isNaN_mul (a := Score.fraction 12 10)
    (Or.inr (Binary32.isNaN_add (a := 1 - Score.fraction 75 100) (Or.inr hratio)))
  have hbelow := Binary32.isNaN_add (a := tf) (Or.inr hnorm)
  exact Binary32.isNaN_mul (Or.inr (Binary32.isNaN_div (Or.inr hbelow)))

namespace FullTextIndex
variable {cls : CharClasses} {ft : FullTextIndex Float32} {query : String} {id : NodeId}

/-- Where the average length is zero, as it is in an index that was just made, a match whose text
has no length scores NaN. -/
theorem isNan_score_of_empty (ln : Float32 → Float32) (havg : ft.avgDocLength = 0)
    (hlen : ft.docLengths.get id = some 0) (hid : id ∈ nodeIds (ft.matched cls query)) :
    Score.IsNan (ft.score ln cls query id) := by
  unfold matched at hid
  unfold score
  cases hfst : ft.fst with
  | none =>
    rw [hfst] at hid
    exact absurd hid (by simp [nodeIds])
  | some fst =>
    rw [hfst] at hid
    obtain ⟨token, htoken, hin⟩ := mem_postingsOf.mp hid
    unfold posting at hin
    cases hterm : fst.get (utf8Bytes token.term) with
    | none =>
      rw [hterm] at hin
      exact absurd hin (by simp [nodeIds])
    | some ordinal =>
      simp only [hterm] at hin
      cases hget : ft.postings[ordinal.toNat]? with
      | none =>
        rw [hget] at hin
        exact absurd hin (by simp [nodeIds])
      | some bm =>
        rw [hget] at hin
        have hterms : ft.contribution ln fst id token
            = some (ft.termScore ln ordinal.toNat bm id) := by
          simp only [contribution, hterm, hget]
          exact if_pos hin
        have hnan : (ft.termScore ln ordinal.toNat bm id).isNaN = true := by
          unfold termScore
          rw [hlen, havg]
          exact bm25Score_empty ln _ _ _
        refine isNan_iff_isNaN.mpr (Binary32.isNaN_foldl_add (Or.inr ⟨_, ?_, hnan⟩))
        exact List.mem_filterMap.mpr ⟨token, htoken, hterms⟩

end FullTextIndex

/-! Two nodes with the text "a", one of which has it twice. -/

def asciiClasses : CharClasses :=
  { isAlphabetic := Char.isAlpha, isNumeric := Char.isDigit, toLowercase := fun c => [c.toLower] }

def twoTexts (length : UInt32) (average : Float32) : FullTextIndex Float32 :=
  { fst := some (FiniteMap.put ∅ (utf8Bytes "a") 0)
    postings := [{7, 8}]
    positions := [FiniteMap.put (FiniteMap.put ∅ 7 [0]) 8 [0, 1]]
    docLengths := FiniteMap.put (FiniteMap.put ∅ 7 length) 8 length
    totalDocs := 2
    avgDocLength := average }

/-- The logarithm of 1.2, the only one taken here. -/
def lnOfSixFifths : Float32 → Float32 := fun _ => 0.18232159

theorem twoTexts_answers (length : UInt32) (average : Float32) :
    (twoTexts length average).Answers asciiClasses "a" := by
  intro fst hfst token htoken ordinal hget
  obtain rfl := Option.some.inj hfst
  have htokens : CjkAnalyzer.tokenize asciiClasses "a" = [{ term := "a", position := 0 }] := rfl
  rw [htokens, List.mem_singleton] at htoken
  subst htoken
  rw [FiniteMap.get_put_self, Option.some.injEq] at hget
  subst hget
  exact Nat.zero_lt_one

theorem matched_twoTexts (length : UInt32) (average : Float32) :
    (twoTexts length average).matched asciiClasses "a" = {7, 8} := rfl

theorem twoTexts_comparable :
    (twoTexts 2 2).Comparable lnOfSixFifths asciiClasses "a" := by
  intro _ id hid
  rw [matched_twoTexts] at hid
  obtain rfl | rfl : id = 7 ∨ id = 8 := by
    simpa [nodeIds] using hid
  · decide +kernel
  · decide +kernel

theorem search_ranks_two :
    ∃ found, (twoTexts 2 2).search asciiClasses lnOfSixFifths (FiniteMap.IterOrder.choice _ _) "a"
        = some found ∧ (found.map Prod.fst).Nodup ∧
      (found.Pairwise fun a b => Score.Le b.2 a.2) ∧
      ∀ id s, (id, s) ∈ found ↔
        id ∈ nodeIds ((twoTexts 2 2).matched asciiClasses "a") ∧
          s = (twoTexts 2 2).score lnOfSixFifths asciiClasses "a" id :=
  FullTextIndex.search_ranks _ _ (twoTexts_answers 2 2) twoTexts_comparable

end LightGraph
