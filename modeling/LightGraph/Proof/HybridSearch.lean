import Mathlib.Analysis.SpecialFunctions.Log.Basic
import LightGraph.Proof.Ranking

/-!
# What a hybrid query filters

With no vector part a query is a bitmap and a set of matching texts, and what it returns should be
the nodes in both, whenever the bitmap is applied. Scores only order them.

Neither path does that. Before the scoring every node of the bitmap passes for a match. After it, an
empty bitmap passes everything: the same value stands for a predicate that nothing meets and for no
predicate. So a predicate does filter except where it is met by nothing and is applied after
(`predicate_filters_iff`), and the timing makes no difference just where every node that passes the
filter is a match, nothing is if none does, and no score that is compared is NaN
(`timings_agree_iff`).
-/

set_option autoImplicit false

namespace LightGraph

open Lib

/-! ## The nodes of a result -/

/-- The nodes a query returns, where it returns. -/
def resultIds {α : Type} (results : Option (List (QueryResult α))) : Option (Finset NodeId) :=
  results.map fun results => (results.map QueryResult.nodeId).toFinset

namespace QueryContext
variable {α : Type} [Score α] [LawfulScore α] {cls : CharClasses} {ln : α → α}
  {ctx : QueryContext α} {parts : QueryParts α} {predicate : Option Predicate}
  {filter : RoaringBitmap} {timing timing' : FilterTiming} {limit : Nat}

/-- Every result is a candidate. -/
theorem mem_candidateIds {orders : MapOrders α} {results : List (QueryResult α)}
    (hvec : ctx.NoVector parts) (hfilter : ctx.propIndex.filterBitmap predicate = some filter)
    (hrun : ctx.hybridSearch cls ln orders parts predicate timing limit = some results)
    {r : QueryResult α} (hr : r ∈ results) :
    r.nodeId ∈ ctx.candidateIds cls parts filter timing := by
  have hcandidate := ((ranks_of_hybridSearch hvec hfilter hrun).scored r hr).1
  exact (Option.ite_none_right_eq_some.mp hcandidate).1

/-- With room for all candidates they are what a query returns. -/
theorem resultIds_eq (orders : MapOrders α) (hvec : ctx.NoVector parts)
    (hfilter : ctx.propIndex.filterBitmap predicate = some filter)
    (hlimit : (ctx.candidateIds cls parts filter timing).card ≤ limit)
    (hpost : ctx.usePreFilter filter timing = false →
      ctx.TextRanks ln cls parts ∧ ctx.Sortable ln cls parts filter) :
    resultIds (ctx.hybridSearch cls ln orders parts predicate timing limit)
      = some (ctx.candidateIds cls parts filter timing) := by
  obtain ⟨scores, hscores, hget⟩ :=
    hybridSearch_scores orders limit hvec hfilter fun h => (hpost h).1
  have hkeys := keys_of_candidate hget
  obtain ⟨results, hrun⟩ := exists_hybridSearch orders limit hvec hfilter hpost
  have hids := ids_ranked orders.scores (hscores.symm.trans hrun) (hkeys ▸ hlimit)
  rw [hrun, resultIds, Option.map_some, hids, hkeys]

theorem resultIds_eq_none {orders : MapOrders α} (hvec : ctx.NoVector parts)
    (hfilter : ctx.propIndex.filterBitmap predicate = some filter)
    (hpost : ctx.usePreFilter filter timing = false)
    (hno : ¬ (ctx.TextRanks ln cls parts ∧ ctx.Sortable ln cls parts filter)) :
    resultIds (ctx.hybridSearch cls ln orders parts predicate timing limit) = none := by
  rw [(hybridSearch_eq_none_iff hvec hfilter).mpr ⟨hpost, hno⟩, resultIds, Option.map_none]

/-- A text is searched for, or there is nothing to find. -/
theorem candidateIds_pre (hvec : ctx.NoVector parts) (halpha : Score.Lt 0 parts.alpha)
    {ft : FullTextIndex α} {q : String} (hft : ctx.ftIndex = some ft)
    (hq : parts.fulltextQuery = some q) :
    ctx.candidateIds cls parts filter .pre = nodeIds filter := by
  have hpos : Score.Lt 0 (ctx.candidateScore parts) := by
    rw [candidateScore_of_text hvec hft hq]
    exact LawfulScore.pos_zero_add_mul_one halpha
  exact if_pos hpos

theorem candidateIds_of_no_text (hvec : ctx.NoVector parts)
    (hno : ∀ ft q, ctx.ftIndex = some ft → parts.fulltextQuery ≠ some q)
    (hfound : ctx.found cls parts = ∅) :
    ctx.candidateIds cls parts filter timing = ∅ := by
  have hzero : ¬ Score.Lt 0 (ctx.candidateScore parts) := by
    rw [candidateScore_of_no_text hvec hno]
    exact Score.not_lt_self 0
  rw [candidateIds, if_neg hzero, hfound, passed, Finset.empty_inter, ite_self]
  exact ite_self _

/-- What both paths leave is the same where the filter holds matches only. -/
theorem passed_eq_iff {found : RoaringBitmap} :
    passed found filter = filter ↔ filter ⊆ found ∧ (filter = ∅ → found = ∅) := by
  unfold passed
  split
  · rename_i hempty
    subst hempty
    simp
  · rename_i hne
    rw [Finset.inter_eq_right]
    exact ⟨fun h => ⟨h, fun hempty => absurd hempty hne⟩, fun h => h.1⟩

/-! ## The predicate filters -/

/-- Some node has a token of the query, and the search answers. -/
def TextMatches {α : Type} (cls : CharClasses) (ctx : QueryContext α) (parts : QueryParts α) :
    Prop :=
  ctx.TextAnswers cls parts ∧ ctx.found cls parts ≠ ∅

section Fields
variable {α : Type} [Field α] [LinearOrder α] {cls : CharClasses} {ln : α → α}
  {ctx : QueryContext α} {parts : QueryParts α} {predicate : Option Predicate}
  {filter : RoaringBitmap} {timing : FilterTiming} {limit : Nat}

/-- In a field everything is a number. -/
theorem not_isNan_of_field (a : α) : ¬ Score.IsNan a := Option.some_ne_none _

theorem textRanks_of_field (ln : α → α) (h : ctx.TextAnswers cls parts) :
    ctx.TextRanks ln cls parts :=
  fun ft q hft hq => ⟨h ft q hft hq, fun _ _ _ => not_isNan_of_field _⟩

/-- Applied after the scoring, a filter lets something through where it leaves something. -/
theorem post_nonempty (ln : α → α) (orders : MapOrders α) (hvec : ctx.NoVector parts)
    (hfilter : ctx.propIndex.filterBitmap predicate = some filter) (hlimit : limit ≠ 0)
    (htext : ctx.TextAnswers cls parts) (hpassed : passed (ctx.found cls parts) filter ≠ ∅) :
    ∃ results r, ctx.hybridSearch cls ln orders parts predicate .post limit = some results ∧
      r ∈ results := by
  have hpost : ctx.usePreFilter filter .post = false →
      ctx.TextRanks ln cls parts ∧ ctx.Sortable ln cls parts filter :=
    fun _ => ⟨textRanks_of_field ln htext, fun _ _ _ => not_isNan_of_field _⟩
  obtain ⟨results, hrun⟩ := exists_hybridSearch orders limit hvec hfilter hpost
  have hranks := ranks_of_hybridSearch hvec hfilter hrun
  refine ⟨results, ?_⟩
  cases results with
  | cons r results => exact ⟨r, hrun, List.mem_cons_self⟩
  | nil =>
    -- a candidate was left out, and there was room for it
    obtain ⟨id, hid⟩ := Finset.nonempty_iff_ne_empty.mpr hpassed
    have hcandidate : ctx.candidate ln cls parts filter .post id.toUInt64
        = some (ctx.scoreGiven ln cls parts filter .post id.toUInt64) :=
      if_pos (Finset.mem_image_of_mem _ hid)
    exact absurd (hranks.best _ _ hcandidate List.not_mem_nil).1.symm hlimit

/-- The empty filter is applied first unless the caller says otherwise. -/
theorem usePreFilter_empty [IsStrictOrderedRing α]
    (h : ctx.usePreFilter ∅ timing = false) : timing = .post := by
  cases timing with
  | post => rfl
  | pre => exact absurd h (by simp [usePreFilter])
  | adaptive =>
    have hzero : ctx.selectivity ∅ = (0 : α) := by
      unfold selectivity
      split
      · show ((Finset.card (∅ : RoaringBitmap) : ℕ) : α) / (ctx.nodeCount.toNat : α) = 0
        rw [Finset.card_empty, Nat.cast_zero, zero_div]
      · rfl
    have hlt : (0 : α) < ((1 : ℕ) : α) / ((10 : ℕ) : α) := by positivity
    have hcmp : Score.Lt (0 : α) (Score.fraction 1 10) :=
      congrArg some (compare_lt_iff_lt.mpr hlt)
    rw [usePreFilter, hzero, decide_eq_true hcmp] at h
    exact absurd h (by simp)

end Fields
end QueryContext

/-- **A predicate filters, unless nothing meets it and it is applied after the scoring.** With no
vector part every node that a query returns is in the bitmap of its predicate, except where the
bitmap is empty, the caller asked for the filter to come last, and the text matches something. -/
theorem predicate_filters_iff {α : Type} [Field α] [LinearOrder α] [IsStrictOrderedRing α]
    {cls : CharClasses} {ln : α → α} {orders : MapOrders α} {ctx : QueryContext α}
    {parts : QueryParts α} (hvec : ctx.NoVector parts) (p : Predicate) (timing : FilterTiming)
    (limit : Nat) :
    (∀ results, ctx.hybridSearch cls ln orders parts (some p) timing limit = some results →
      ∀ r ∈ results, ∃ bm, ctx.propIndex.evaluate p = some bm ∧ r.nodeId ∈ nodeIds bm) ↔
    ¬ (timing = .post ∧ ctx.propIndex.evaluate p = some ∅ ∧ limit ≠ 0 ∧
      ctx.TextMatches cls parts) := by
  constructor
  · intro h ⟨htiming, hempty, hlimit, htext⟩
    subst htiming
    have hfilter : ctx.propIndex.filterBitmap (some p) = some ∅ := hempty
    obtain ⟨results, r, hrun, hr⟩ :=
      QueryContext.post_nonempty ln orders hvec hfilter hlimit htext.1 htext.2
    obtain ⟨bm, hbm, hmem⟩ := h results hrun r hr
    rw [Option.some.inj (hempty.symm.trans hbm).symm] at hmem
    exact absurd hmem (by simp [nodeIds])
  · intro h results hrun r hr
    cases hfilter : ctx.propIndex.filterBitmap (some p) with
    | none =>
      have hnone : ctx.hybridSearch cls ln orders parts (some p) timing limit = none := by
        simp only [QueryContext.hybridSearch, hfilter]
      cases hnone.symm.trans hrun
    | some filter =>
      refine ⟨filter, hfilter, ?_⟩
      have hmem := QueryContext.mem_candidateIds hvec hfilter hrun hr
      unfold QueryContext.candidateIds at hmem
      cases hpre : ctx.usePreFilter filter timing with
      | true =>
        rw [if_pos hpre] at hmem
        split at hmem
        · exact hmem
        · exact absurd hmem (Finset.notMem_empty _)
      | false =>
        rw [hpre, if_neg (by simp), QueryContext.passed] at hmem
        have htext : ctx.TextAnswers cls parts := fun ft q hft hq =>
          (QueryContext.textRanks_of_hybridSearch hfilter hrun hpre ft q hft hq).1
        split at hmem
        · -- nothing was cut away: this is the exception
          rename_i hempty
          subst hempty
          refine absurd ⟨QueryContext.usePreFilter_empty hpre, hfilter, ?_, htext, ?_⟩ h
          · rintro rfl
            obtain ⟨scores, hscores, -⟩ := QueryContext.hybridSearch_scores orders 0 hvec hfilter
              fun _ => QueryContext.textRanks_of_field ln htext
            obtain ⟨sorted, -, rfl⟩ := Option.map_eq_some_iff.mp (hscores.symm.trans hrun)
            exact absurd hr (by simp)
          · intro hfound
            rw [hfound] at hmem
            exact absurd hmem (by simp [nodeIds])
        · exact Finset.image_subset_image Finset.inter_subset_right hmem

/-! One node with the text "a", found under one value of one property. -/

section OneText
variable (α : Type) [Score α]

def oneText : QueryContext α :=
  { ftIndex := some
      { fst := some (FiniteMap.put ∅ (utf8Bytes "a") 0)
        postings := [{7}]
        positions := [FiniteMap.put ∅ 7 [0]]
        docLengths := FiniteMap.put ∅ 7 1
        totalDocs := 1
        avgDocLength := 1 }
    vecIndex := none
    propIndex :=
      { eqIndexes := FiniteMap.put ∅ ("l", "p") (FiniteMap.put ∅ (.int 1) {7})
        rangeIndexes := ∅ }
    nodeCount := 10 }

theorem found_oneText : (oneText α).found asciiClasses (askForA α) = {7} := rfl

theorem oneText_answers : (oneText α).TextAnswers asciiClasses (askForA α) := by
  intro ft q hft hq fst hfst token htoken ordinal hget
  obtain rfl := Option.some.inj hft
  obtain rfl := Option.some.inj hq
  obtain rfl := Option.some.inj hfst
  have htokens : CjkAnalyzer.tokenize asciiClasses "a" = [{ term := "a", position := 0 }] := rfl
  rw [htokens, List.mem_singleton] at htoken
  subst htoken
  rw [FiniteMap.get_put_self, Option.some.injEq] at hget
  subst hget
  exact Nat.zero_lt_one

end OneText

theorem predicate_filters_iff_one :
    ∃ results r, (oneText ℝ).hybridSearch asciiClasses Real.log (anyOrders ℝ) (askForA ℝ)
        (some (.eq "l" "p" (.int 1))) .post 10 = some results ∧
      r ∈ results ∧ ∃ bm, (oneText ℝ).propIndex.evaluate (.eq "l" "p" (.int 1)) = some bm ∧
        r.nodeId ∈ nodeIds bm := by
  have hfilter : (oneText ℝ).propIndex.filterBitmap (some (.eq "l" "p" (.int 1))) = some {7} := rfl
  have hne : ({7} : RoaringBitmap) ≠ ∅ := Finset.singleton_ne_empty 7
  have hpassed :
      QueryContext.passed ((oneText ℝ).found asciiClasses (askForA ℝ)) {7} ≠ ∅ := by
    rw [found_oneText, QueryContext.passed, if_neg hne, Finset.inter_self]
    exact hne
  obtain ⟨results, r, hrun, hr⟩ := QueryContext.post_nonempty Real.log (anyOrders ℝ) (Or.inl rfl)
    hfilter (by decide : 10 ≠ 0) (oneText_answers ℝ) hpassed
  refine ⟨results, r, hrun, hr, ?_⟩
  refine (predicate_filters_iff (Or.inl rfl) _ .post 10).mpr ?_ results hrun r hr
  rintro ⟨-, hempty, -⟩
  exact hne (Option.some.inj hempty)

/-- A value that no node has filters nothing out. -/
theorem empty_filter_passes :
    ¬ ∀ (cls : CharClasses) (ln : ℝ → ℝ) (orders : MapOrders ℝ) (ctx : QueryContext ℝ)
      (parts : QueryParts ℝ) (p : Predicate) (timing : FilterTiming) (limit : Nat),
      ctx.NoVector parts → ∀ results,
      ctx.hybridSearch cls ln orders parts (some p) timing limit = some results →
      ∀ r ∈ results, ∃ bm, ctx.propIndex.evaluate p = some bm ∧ r.nodeId ∈ nodeIds bm := by
  intro h
  have hfilter : (oneText ℝ).propIndex.filterBitmap (some (.eq "l" "p" (.int 2))) = some ∅ := rfl
  have hpassed : QueryContext.passed ((oneText ℝ).found asciiClasses (askForA ℝ)) ∅ ≠ ∅ := by
    rw [found_oneText]
    exact Finset.singleton_ne_empty 7
  obtain ⟨results, r, hrun, hr⟩ := QueryContext.post_nonempty Real.log (anyOrders ℝ) (Or.inl rfl)
    hfilter (by decide : 10 ≠ 0) (oneText_answers ℝ) hpassed
  obtain ⟨bm, hbm, hmem⟩ := h asciiClasses Real.log (anyOrders ℝ) (oneText ℝ) (askForA ℝ) _ .post 10
    (Or.inl rfl) results hrun r hr
  obtain rfl : ∅ = bm := Option.some.inj hbm
  exact absurd hmem (by simp [nodeIds])

/-! ## The timing -/

namespace QueryContext
variable {α : Type} [Score α] [LawfulScore α] {cls : CharClasses} {ln : α → α}
  {ctx : QueryContext α} {parts : QueryParts α} {predicate : Option Predicate}
  {filter : RoaringBitmap} {timing timing' : FilterTiming} {limit : Nat}

omit [LawfulScore α] in
theorem card_candidateIds_le (hfilter : filter.card ≤ limit)
    (hfound : (ctx.found cls parts).card ≤ limit) :
    (ctx.candidateIds cls parts filter timing).card ≤ limit := by
  unfold candidateIds passed
  split
  · split
    · rwa [card_nodeIds]
    · exact Nat.zero_le _
  · rw [card_nodeIds]
    split
    · exact hfound
    · exact Nat.le_trans (Finset.card_le_card Finset.inter_subset_right) hfilter

/-- Where the filter is applied at the same point the orders make no difference. -/
theorem resultIds_congr (orders orders' : MapOrders α) (hvec : ctx.NoVector parts)
    (hfilter : ctx.propIndex.filterBitmap predicate = some filter) (hlimit : filter.card ≤ limit)
    (hfound : (ctx.found cls parts).card ≤ limit)
    (hsame : ctx.usePreFilter filter timing = ctx.usePreFilter filter timing') :
    resultIds (ctx.hybridSearch cls ln orders parts predicate timing limit) =
      resultIds (ctx.hybridSearch cls ln orders' parts predicate timing' limit) := by
  have hids : ctx.candidateIds cls parts filter timing
      = ctx.candidateIds cls parts filter timing' := by
    rw [candidateIds, candidateIds, hsame]
  by_cases hgo : ctx.usePreFilter filter timing = false →
      ctx.TextRanks ln cls parts ∧ ctx.Sortable ln cls parts filter
  · rw [resultIds_eq orders hvec hfilter (card_candidateIds_le hlimit hfound) hgo,
      resultIds_eq orders' hvec hfilter (card_candidateIds_le hlimit hfound) (hsame ▸ hgo), hids]
  · obtain ⟨hpost, hno⟩ := Classical.not_imp.mp hgo
    rw [resultIds_eq_none hvec hfilter hpost hno,
      resultIds_eq_none hvec hfilter (hsame ▸ hpost) hno]

/-- Where the two paths agree. -/
theorem pre_eq_post_iff (orders orders' : MapOrders α) (hvec : ctx.NoVector parts)
    (halpha : Score.Lt 0 parts.alpha) (hfilter : ctx.propIndex.filterBitmap predicate = some filter)
    (hlimit : filter.card ≤ limit) (hfound : (ctx.found cls parts).card ≤ limit) :
    resultIds (ctx.hybridSearch cls ln orders parts predicate .pre limit) =
      resultIds (ctx.hybridSearch cls ln orders' parts predicate .post limit) ↔
    ∀ ft q, ctx.ftIndex = some ft → parts.fulltextQuery = some q →
      ft.Answers cls q ∧ ft.Comparable ln cls q ∧
        filter ⊆ ft.matched cls q ∧ (filter = ∅ → ft.matched cls q = ∅) ∧
        (2 ≤ filter.card → ∀ id ∈ nodeIds filter,
          ¬ Score.IsNan (0 + parts.alpha * ft.score ln cls q id)) := by
  rw [resultIds_eq orders hvec hfilter (card_candidateIds_le hlimit hfound)
    fun h => absurd h (by simp [usePreFilter])]
  rcases text_cases cls ctx parts with ⟨ft, q, hft, hq, heq⟩ | ⟨hno, heq⟩
  · -- the one index and the one query there are
    have hone : ∀ {P : FullTextIndex α → String → Prop},
        (∀ ft q, ctx.ftIndex = some ft → parts.fulltextQuery = some q → P ft q) ↔ P ft q := by
      intro P
      refine ⟨fun h => h ft q hft hq, fun h ft' q' hft' hq' => ?_⟩
      obtain rfl := Option.some.inj (hft.symm.trans hft')
      obtain rfl := Option.some.inj (hq.symm.trans hq')
      exact h
    have hscore : ctx.textScore ln cls parts = ft.score ln cls q := by
      funext id
      rw [textScore, hft, hq]
    rw [candidateIds_pre hvec halpha hft hq, hone]
    have hsortable : passed (ctx.found cls parts) filter = filter →
        (ctx.Sortable ln cls parts filter ↔ (2 ≤ filter.card → ∀ id ∈ nodeIds filter,
          ¬ Score.IsNan (0 + parts.alpha * ft.score ln cls q id))) := by
      intro hpassed
      rw [Sortable, hpassed, hscore]
    by_cases hgo : ctx.TextRanks ln cls parts ∧ ctx.Sortable ln cls parts filter
    · obtain ⟨hranks, hsort⟩ := hgo
      obtain ⟨hanswers, hcmp⟩ := hranks ft q hft hq
      rw [resultIds_eq orders' hvec hfilter (card_candidateIds_le hlimit hfound)
        fun _ => ⟨hranks, hsort⟩]
      have hpost : ctx.candidateIds cls parts filter .post
          = nodeIds (passed (ctx.found cls parts) filter) := rfl
      rw [hpost, Option.some.injEq, nodeIds_injective.eq_iff, eq_comm, ← heq]
      constructor
      · intro hpassed
        obtain ⟨hsub, hempty⟩ := passed_eq_iff.mp hpassed
        exact ⟨hanswers, hcmp, hsub, hempty, (hsortable hpassed).mp hsort⟩
      · rintro ⟨-, -, hsub, hempty, -⟩
        exact passed_eq_iff.mpr ⟨hsub, hempty⟩
    · rw [resultIds_eq_none hvec hfilter rfl hgo]
      refine iff_of_false (by simp) ?_
      rintro ⟨hanswers, hcmp, hsub, hempty, hsort⟩
      have hpassed := passed_eq_iff.mpr ⟨heq ▸ hsub, heq ▸ hempty⟩
      exact hgo ⟨(textRanks_iff hft hq).mpr ⟨hanswers, hcmp⟩, (hsortable hpassed).mpr hsort⟩
  · -- without a text nothing is scored, before or after
    have hgo : ctx.TextRanks ln cls parts ∧ ctx.Sortable ln cls parts filter := by
      refine ⟨fun ft q hft hq => absurd hq (hno ft q hft), fun hcard => ?_⟩
      rw [heq, passed, Finset.empty_inter, ite_self] at hcard
      exact absurd hcard (by simp)
    rw [resultIds_eq orders' hvec hfilter (card_candidateIds_le hlimit hfound) fun _ => hgo,
      candidateIds_of_no_text hvec hno heq, candidateIds_of_no_text hvec hno heq]
    exact iff_of_true rfl fun ft q hft hq => absurd hq (hno ft q hft)

end QueryContext

/-- **The timing makes no difference just where the filter holds matches only.** With no vector
part, a positive weight for the text and room for all candidates, the three timings give the same
nodes if and only if, where there is a text to search for, the search answers, every node that
passes the filter is a match, nothing is a match if nothing passes, and no score that would be
compared with another is NaN, neither that of one of several matches nor, weighted, that of one of
several nodes of the filter. No predicate is the filter that nothing passes. -/
theorem timings_agree_iff {cls : CharClasses} {ln : Float32 → Float32}
    {orders₁ orders₂ orders₃ : MapOrders Float32} {ctx : QueryContext Float32}
    {parts : QueryParts Float32} {predicate : Option Predicate} {limit : Nat}
    (hvec : ctx.NoVector parts) (halpha : 0 < parts.alpha)
    (hlimit : ∀ filter, ctx.propIndex.filterBitmap predicate = some filter → filter.card ≤ limit)
    (hfound : (ctx.found cls parts).card ≤ limit) :
    (resultIds (ctx.hybridSearch cls ln orders₁ parts predicate .pre limit) =
        resultIds (ctx.hybridSearch cls ln orders₂ parts predicate .post limit) ∧
      resultIds (ctx.hybridSearch cls ln orders₂ parts predicate .post limit) =
        resultIds (ctx.hybridSearch cls ln orders₃ parts predicate .adaptive limit)) ↔
    ∀ filter, ctx.propIndex.filterBitmap predicate = some filter →
      ∀ ft q, ctx.ftIndex = some ft → parts.fulltextQuery = some q →
        ft.Answers cls q ∧ ft.Comparable ln cls q ∧
          filter ⊆ ft.matched cls q ∧ (filter = ∅ → ft.matched cls q = ∅) ∧
          (2 ≤ filter.card → ∀ id ∈ nodeIds filter,
            ¬ Score.IsNan (0 + parts.alpha * ft.score ln cls q id)) := by
  cases hfilter : ctx.propIndex.filterBitmap predicate with
  | none =>
    refine iff_of_true ?_ fun filter h => absurd h (by simp)
    simp only [QueryContext.hybridSearch, hfilter, and_self]
  | some filter =>
    have hcard := hlimit filter hfilter
    have hpos : Score.Lt 0 parts.alpha := Binary32.partialCmp_lt_iff.mpr halpha
    simp only [Option.some.injEq, forall_eq']
    rw [← QueryContext.pre_eq_post_iff orders₁ orders₂ hvec hpos hfilter hcard hfound]
    refine and_iff_left_of_imp fun hagree => ?_
    -- the third timing is one of the other two
    cases hpre : ctx.usePreFilter filter .adaptive with
    | true =>
      exact hagree.symm.trans
        (QueryContext.resultIds_congr orders₁ orders₃ hvec hfilter hcard hfound hpre.symm)
    | false =>
      exact QueryContext.resultIds_congr orders₂ orders₃ hvec hfilter hcard hfound hpre.symm

theorem timings_agree_iff_one :
    resultIds ((oneText Float32).hybridSearch asciiClasses Float32.log (anyOrders _) (askForA _)
        (some (.eq "l" "p" (.int 1))) .pre 10) =
      resultIds ((oneText Float32).hybridSearch asciiClasses Float32.log (anyOrders _) (askForA _)
        (some (.eq "l" "p" (.int 1))) .post 10) ∧
    resultIds ((oneText Float32).hybridSearch asciiClasses Float32.log (anyOrders _) (askForA _)
        (some (.eq "l" "p" (.int 1))) .post 10) =
      resultIds ((oneText Float32).hybridSearch asciiClasses Float32.log (anyOrders _) (askForA _)
        (some (.eq "l" "p" (.int 1))) .adaptive 10) := by
  have halpha : 0 < (askForA Float32).alpha := Binary32.partialCmp_lt_iff.mp rfl
  have hfilter : (oneText Float32).propIndex.filterBitmap (some (.eq "l" "p" (.int 1)))
      = some {7} := rfl
  refine (timings_agree_iff (Or.inl rfl) halpha (fun filter h => ?_) ?_).mpr ?_
  · obtain rfl := Option.some.inj (hfilter.symm.trans h)
    decide
  · rw [found_oneText]
    decide
  · intro filter h ft q hft hq
    obtain rfl := Option.some.inj (hfilter.symm.trans h)
    obtain rfl := Option.some.inj hft
    obtain rfl := Option.some.inj hq
    have hmatched : (oneText Float32).found asciiClasses (askForA Float32) = {7} :=
      found_oneText Float32
    -- one node is compared with no other
    have hone : ¬ 2 ≤ Finset.card ({7} : RoaringBitmap) := by decide
    exact ⟨oneText_answers Float32 _ _ rfl rfl, fun htwo => absurd (hmatched ▸ htwo) hone,
      Finset.subset_of_eq hmatched.symm, fun hempty => absurd hempty (Finset.singleton_ne_empty 7),
      fun htwo => absurd htwo hone⟩

/-- Without a predicate there is a result only where the filter is applied last. -/
theorem no_predicate_differs :
    ¬ ∀ (cls : CharClasses) (ln : Float32 → Float32) (orders : MapOrders Float32)
      (ctx : QueryContext Float32) (parts : QueryParts Float32) (predicate : Option Predicate)
      (limit : Nat), ctx.NoVector parts → 0 < parts.alpha →
      (∀ filter, ctx.propIndex.filterBitmap predicate = some filter → filter.card ≤ limit) →
      (ctx.found cls parts).card ≤ limit →
      resultIds (ctx.hybridSearch cls ln orders parts predicate .pre limit) =
          resultIds (ctx.hybridSearch cls ln orders parts predicate .post limit) ∧
        resultIds (ctx.hybridSearch cls ln orders parts predicate .post limit) =
          resultIds (ctx.hybridSearch cls ln orders parts predicate .adaptive limit) := by
  intro h
  have hpos : Score.Lt 0 (askForA Float32).alpha := rfl
  have hfilter : (oneText Float32).propIndex.filterBitmap none = some ∅ := rfl
  have hfound : ((oneText Float32).found asciiClasses (askForA Float32)).card ≤ 10 := by
    rw [found_oneText]
    decide
  obtain ⟨hagree, -⟩ := h asciiClasses Float32.log (anyOrders _) (oneText _) (askForA _) none 10
    (Or.inl rfl) (Binary32.partialCmp_lt_iff.mp hpos)
    (fun filter hf => Option.some.inj (hfilter.symm.trans hf) ▸ Nat.zero_le _) hfound
  obtain ⟨-, -, -, hempty, -⟩ := (QueryContext.pre_eq_post_iff (anyOrders _) (anyOrders _)
    (Or.inl rfl) hpos hfilter (Nat.zero_le _) hfound).mp hagree _ _ rfl rfl
  have hmatched : (oneText Float32).found asciiClasses (askForA Float32) = ∅ := hempty rfl
  rw [found_oneText] at hmatched
  exact absurd hmatched (Finset.singleton_ne_empty 7)

end LightGraph
