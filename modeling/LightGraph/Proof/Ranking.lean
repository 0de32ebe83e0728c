import LightGraph.Proof.TextSearch
import LightGraph.Query.HybridSearch

/-!
# What a hybrid query returns

With no vector part a query scores its candidates and returns the best of them. Which nodes are
candidates, and with what score, depends on when the filter is applied (`candidate`): before the
scoring every node of the filter is one and they all have the same score, after it those are that
the text search finds inside the filter, with the score it has there times the weight. An empty
filter is no filter then.

Whatever the order in which maps are gone through, the results are the best of the candidates
(`hybrid_ranks`). There are none at all where an index panics, or where one of several candidates
has a score that is no number (`hybrid_eq_none_iff`); before the scoring that does not happen.
-/

set_option autoImplicit false

namespace LightGraph

open Lib
open scoped List

/-! ## The scores of a query -/

namespace QueryContext
variable {α : Type}

/-- What the text part of a query matches. -/
def found (cls : CharClasses) (ctx : QueryContext α) (parts : QueryParts α) : RoaringBitmap :=
  match ctx.ftIndex, parts.fulltextQuery with
  | some ft, some q => ft.matched cls q
  | _, _ => ∅

/-- The text part of a query, if it has one, is answered. -/
def TextAnswers (cls : CharClasses) (ctx : QueryContext α) (parts : QueryParts α) : Prop :=
  ∀ ft q, ctx.ftIndex = some ft → parts.fulltextQuery = some q → ft.Answers cls q

def NoVector (ctx : QueryContext α) (parts : QueryParts α) : Prop :=
  ctx.vecIndex = none ∨ parts.vectorQuery = none

/-- What the post-filter path leaves of what was found. -/
def passed (found filter : RoaringBitmap) : RoaringBitmap :=
  if filter = ∅ then found else found ∩ filter

variable {ctx : QueryContext α} {parts : QueryParts α}

theorem text_cases (cls : CharClasses) (ctx : QueryContext α) (parts : QueryParts α) :
    (∃ ft q, ctx.ftIndex = some ft ∧ parts.fulltextQuery = some q ∧
      ctx.found cls parts = ft.matched cls q) ∨
    (∀ ft q, ctx.ftIndex = some ft → parts.fulltextQuery ≠ some q) ∧
      ctx.found cls parts = ∅ := by
  unfold found
  cases ctx.ftIndex with
  | none => exact Or.inr ⟨fun ft q hft => absurd hft (by simp), rfl⟩
  | some ft =>
    cases parts.fulltextQuery with
    | none => exact Or.inr ⟨fun ft q _ => by simp, rfl⟩
    | some q => exact Or.inl ⟨ft, q, rfl, rfl, rfl⟩

/-- The text part of a query, if it has one, goes through. -/
def TextRanks [Score α] (ln : α → α) (cls : CharClasses) (ctx : QueryContext α)
    (parts : QueryParts α) : Prop :=
  ∀ ft q, ctx.ftIndex = some ft → parts.fulltextQuery = some q →
    ft.Answers cls q ∧ ft.Comparable ln cls q

theorem textRanks_iff [Score α] {ln : α → α} {cls : CharClasses} {ft : FullTextIndex α}
    {q : String} (hft : ctx.ftIndex = some ft) (hq : parts.fulltextQuery = some q) :
    ctx.TextRanks ln cls parts ↔ ft.Answers cls q ∧ ft.Comparable ln cls q := by
  refine ⟨fun h => h ft q hft hq, fun h ft' q' hft' hq' => ?_⟩
  obtain rfl := Option.some.inj (hft.symm.trans hft')
  obtain rfl := Option.some.inj (hq.symm.trans hq')
  exact h

variable [Score α]

/-- Where there is a text to search for, a candidate has its weight. -/
theorem candidateScore_of_text (hvec : ctx.NoVector parts) {ft : FullTextIndex α} {q : String}
    (hft : ctx.ftIndex = some ft) (hq : parts.fulltextQuery = some q) :
    ctx.candidateScore parts = 0 + parts.alpha * 1 := by
  unfold candidateScore
  rw [hft, hq]
  rcases hvec with hvec | hvec
  · rw [hvec]
  · rw [hvec]
    cases ctx.vecIndex <;> rfl

theorem candidateScore_of_no_text (hvec : ctx.NoVector parts)
    (htext : ∀ ft q, ctx.ftIndex = some ft → parts.fulltextQuery ≠ some q) :
    ctx.candidateScore parts = 0 := by
  have hscore : (match ctx.ftIndex, parts.fulltextQuery with
      | some _, some _ => 0 + parts.alpha * 1
      | _, _ => 0) = 0 := by
    split
    · rename_i ft q hft hq
      exact absurd hq (htext ft q hft)
    · rfl
  unfold candidateScore
  rcases hvec with hvec | hvec
  · rw [hvec]
    exact hscore
  · rw [hvec]
    cases ctx.vecIndex <;> exact hscore

omit [Score α] in
theorem get_foldl_put_const (s : α) (k : NodeId) (ids : List UInt32) :
    ∀ scores : FiniteMap NodeId α,
      (ids.foldl (fun scores id => scores.put id.toUInt64 s) scores).get k
        = if k ∈ ids.map UInt32.toUInt64 then some s else scores.get k := by
  induction ids with
  | nil => exact fun _ => rfl
  | cons id ids ih =>
    intro scores
    rw [List.foldl_cons, ih, FiniteMap.get_put, List.map_cons]
    by_cases hk : k = id.toUInt64
    · subst hk
      rw [if_pos rfl, if_pos List.mem_cons_self, ite_self]
    · rw [if_neg hk]
      simp only [List.mem_cons, hk, false_or]

/-- Before the scoring every node of the filter has the same score. -/
theorem preScores_get (filter : RoaringBitmap) (id : NodeId) :
    (ctx.preScores parts filter).get id
      = if id ∈ nodeIds filter ∧ Score.Lt 0 (ctx.candidateScore parts) then
          some (ctx.candidateScore parts)
        else none := by
  have hmem : id ∈ (RoaringBitmap.iter filter).map UInt32.toUInt64 ↔ id ∈ nodeIds filter := by
    rw [← toFinset_iter, List.mem_toFinset]
  unfold preScores
  by_cases hscore : Score.Lt 0 (ctx.candidateScore parts)
  · simp only [hscore, if_true, and_true]
    rw [get_foldl_put_const, FiniteMap.get_empty]
    simp only [hmem]
  · simp only [hscore, if_false, and_false]
    rw [List.foldl_fixed, FiniteMap.get_empty]

/-- Each find once, with its weight. -/
theorem get_addFound (weight : α) (k : NodeId) (found : List (NodeId × α)) :
    (found.map Prod.fst).Nodup → ∀ scores : FiniteMap NodeId α,
      (k ∉ found.map Prod.fst → (addFound weight scores found).get k = scores.get k) ∧
      ∀ s, (k, s) ∈ found →
        (addFound weight scores found).get k = some ((scores.get k).getD 0 + weight * s) := by
  induction found with
  | nil => exact fun _ _ => ⟨fun _ => rfl, fun s hs => absurd hs List.not_mem_nil⟩
  | cons e found ih =>
    intro hnodup scores
    obtain ⟨hnot, hrest⟩ := List.nodup_cons.mp hnodup
    obtain ⟨hother, hown⟩ := ih hrest (addScore scores e.1 (weight * e.2))
    constructor
    · intro hk
      have hne : k ≠ e.1 := fun heq => hk (heq ▸ List.mem_cons_self)
      have hk : k ∉ found.map Prod.fst := fun hin => hk (List.mem_cons_of_mem _ hin)
      refine (hother hk).trans ?_
      rw [FullTextIndex.get_addScore, if_neg hne]
    · intro s hs
      rcases List.mem_cons.mp hs with rfl | hs
      · refine (hother hnot).trans ?_
        rw [FullTextIndex.get_addScore, if_pos rfl]
      · have hne : k ≠ e.1 := fun heq => hnot (heq ▸ List.mem_map_of_mem (f := Prod.fst) hs)
        refine (hown s hs).trans ?_
        rw [FullTextIndex.get_addScore, if_neg hne]

/-- What the text part gives a node. -/
def textScore (ln : α → α) (cls : CharClasses) (ctx : QueryContext α) (parts : QueryParts α)
    (id : NodeId) : α :=
  match ctx.ftIndex, parts.fulltextQuery with
  | some ft, some q => ft.score ln cls q id
  | _, _ => 0

theorem vectorScores_eq (hvec : ctx.NoVector parts) (scores : FiniteMap NodeId α) :
    ctx.vectorScores parts scores = some scores := by
  unfold vectorScores
  rcases hvec with hvec | hvec
  · rw [hvec]
  · rw [hvec]
    cases ctx.vecIndex <;> rfl

/-- The nodes a query scores. -/
def candidateIds (cls : CharClasses) (ctx : QueryContext α) (parts : QueryParts α)
    (filter : RoaringBitmap) (timing : FilterTiming) : Finset NodeId :=
  if ctx.usePreFilter filter timing then
    if Score.Lt 0 (ctx.candidateScore parts) then nodeIds filter else ∅
  else nodeIds (passed (ctx.found cls parts) filter)

/-- The score a candidate gets. -/
def scoreGiven (ln : α → α) (cls : CharClasses) (ctx : QueryContext α) (parts : QueryParts α)
    (filter : RoaringBitmap) (timing : FilterTiming) (id : NodeId) : α :=
  if ctx.usePreFilter filter timing then ctx.candidateScore parts
  else 0 + parts.alpha * ctx.textScore ln cls parts id

/-- The score of a node, if it is a candidate. -/
def candidate (ln : α → α) (cls : CharClasses) (ctx : QueryContext α) (parts : QueryParts α)
    (filter : RoaringBitmap) (timing : FilterTiming) (id : NodeId) : Option α :=
  if id ∈ ctx.candidateIds cls parts filter timing then
    some (ctx.scoreGiven ln cls parts filter timing id)
  else none

variable [LawfulScore α] {cls : CharClasses} (ln : α → α) (order : FiniteMap.IterOrder NodeId α)

theorem textScores_get (h : ctx.TextRanks ln cls parts) :
    ∃ scores, ctx.textScores cls ln order parts = some scores ∧ ∀ id, scores.get id
      = if id ∈ nodeIds (ctx.found cls parts) then
          some (0 + parts.alpha * ctx.textScore ln cls parts id)
        else none := by
  unfold textScores textScore
  rcases text_cases cls ctx parts with ⟨ft, q, hft, hq, hfound⟩ | ⟨htext, hfound⟩
  · obtain ⟨hanswers, hcmp⟩ := h ft q hft hq
    obtain ⟨found, hsearch⟩ := FullTextIndex.exists_search ln order hanswers hcmp
    obtain ⟨hnodup, -, hmem⟩ := FullTextIndex.found_of_search ln order hsearch
    simp only [hft, hq, hsearch, hfound]
    refine ⟨_, rfl, fun id => ?_⟩
    obtain ⟨hother, hown⟩ := get_addFound parts.alpha id found hnodup ∅
    by_cases hid : id ∈ nodeIds (ft.matched cls q)
    · rw [if_pos hid, hown _ ((hmem id _).mpr ⟨hid, rfl⟩), FiniteMap.get_empty, Option.getD_none]
    · rw [if_neg hid, hother, FiniteMap.get_empty]
      intro hin
      obtain ⟨⟨id', s⟩, he, rfl⟩ := List.mem_map.mp hin
      exact hid ((hmem id' s).mp he).1
  · split
    · rename_i ft q hft hq
      exact absurd hq (htext ft q hft)
    · rw [hfound]
      exact ⟨∅, rfl, fun id => rfl⟩

theorem textScores_eq_none (h : ¬ ctx.TextRanks ln cls parts) :
    ctx.textScores cls ln order parts = none := by
  unfold textScores
  split
  · rename_i ft q hft hq
    rw [textRanks_iff hft hq] at h
    rw [(FullTextIndex.search_eq_none_iff ln order).mpr h]
    rfl
  · rename_i hno
    exact absurd (fun ft q hft hq => (hno ft q hft hq).elim) h

theorem postScores_get (hvec : ctx.NoVector parts) (h : ctx.TextRanks ln cls parts)
    (filter : RoaringBitmap) :
    ∃ scores, ctx.postScores cls ln order parts filter = some scores ∧ ∀ id, scores.get id
      = if id ∈ nodeIds (passed (ctx.found cls parts) filter) then
          some (0 + parts.alpha * ctx.textScore ln cls parts id)
        else none := by
  obtain ⟨scores, hscores, hget⟩ := textScores_get ln order h
  simp only [postScores, hscores, vectorScores_eq hvec, passed]
  split
  · exact ⟨scores, rfl, hget⟩
  · refine ⟨_, rfl, fun id => ?_⟩
    rw [FiniteMap.get_retain, hget, ← filter_nodeIds]
    simp only [Finset.mem_filter]
    by_cases hid : id ∈ nodeIds (ctx.found cls parts)
    · by_cases hin : id.toUInt32 ∈ filter
      · simp [hid, hin]
      · simp [hid, hin]
    · simp [hid]

theorem postScores_eq_none (h : ¬ ctx.TextRanks ln cls parts) (filter : RoaringBitmap) :
    ctx.postScores cls ln order parts filter = none := by
  simp only [postScores, textScores_eq_none ln order h]

/-! ## What is left after the sort and the cut -/

omit [Score α] [LawfulScore α] in
theorem mem_resultsOf {scores : FiniteMap NodeId α} {r : QueryResult α} :
    r ∈ resultsOf order scores ↔ scores.get r.nodeId = some r.score ∧ r.path = none := by
  rw [resultsOf, List.mem_map]
  constructor
  · rintro ⟨⟨id, s⟩, he, rfl⟩
    exact ⟨(order.mem_entries scores id s).mp he, rfl⟩
  · rintro ⟨hget, hpath⟩
    refine ⟨(r.nodeId, r.score), (order.mem_entries _ _ _).mpr hget, ?_⟩
    rw [← hpath]

omit [Score α] [LawfulScore α] in
theorem ids_resultsOf (scores : FiniteMap NodeId α) :
    (resultsOf order scores).map QueryResult.nodeId = (order.entries scores).map Prod.fst := by
  rw [resultsOf, List.map_map]
  rfl

omit [Score α] [LawfulScore α] in
theorem length_resultsOf (scores : FiniteMap NodeId α) :
    (resultsOf order scores).length = scores.keys.card := by
  rw [resultsOf, List.length_map, order.length_entries]

variable {limit : Nat} {scores : FiniteMap NodeId α}

/-- A query does not come back where one of several candidates has no number for a score. -/
theorem ranked_eq_none_iff : ranked order limit scores = none ↔
    2 ≤ scores.keys.card ∧ ∃ id s, scores.get id = some s ∧ Score.IsNan s := by
  rw [ranked, Option.map_eq_none_iff, sortDescending_eq_none_iff, length_resultsOf]
  refine and_congr_right fun _ => ?_
  constructor
  · rintro ⟨r, hr, hnan⟩
    exact ⟨_, _, ((mem_resultsOf order).mp hr).1, hnan⟩
  · rintro ⟨id, s, hget, hnan⟩
    exact ⟨⟨id, s, none⟩, (mem_resultsOf order).mpr ⟨hget, rfl⟩, hnan⟩

theorem best_ranked {results : List (QueryResult α)}
    (h : ranked order limit scores = some results) :
    Best (fun a b => Score.Le b.score a.score) limit (resultsOf order scores) results := by
  obtain ⟨sorted, hsort, rfl⟩ := Option.map_eq_some_iff.mp h
  exact best_sortBy (byKey_descending QueryResult.score) hsort limit

/-- With room for all, all are returned. -/
theorem ids_ranked {results : List (QueryResult α)}
    (h : ranked order limit scores = some results) (hlimit : scores.keys.card ≤ limit) :
    (results.map QueryResult.nodeId).toFinset = scores.keys := by
  have hperm := (best_ranked order h).perm (by rwa [length_resultsOf])
  rw [← order.toFinset_entries scores, ← ids_resultsOf]
  exact List.toFinset_eq_of_perm _ _ (hperm.map _)

end QueryContext

/-- The results are the best of the candidates, each once and with its own score. A candidate is
left out only where there is no room for it. -/
structure Ranks {α : Type} [Score α] (candidate : NodeId → Option α) (limit : Nat)
    (results : List (QueryResult α)) : Prop where
  nodup : (results.map QueryResult.nodeId).Nodup
  descending : results.Pairwise fun a b => Score.Le b.score a.score
  scored : ∀ r ∈ results, candidate r.nodeId = some r.score ∧ r.path = none
  best : ∀ id s, candidate id = some s → id ∉ results.map QueryResult.nodeId →
    results.length = limit ∧ ∀ r ∈ results, Score.Le s r.score

namespace QueryContext
variable {α : Type} [Score α] [LawfulScore α] (order : FiniteMap.IterOrder NodeId α) {limit : Nat}
  {scores : FiniteMap NodeId α}

/-- Sorting and cutting a map of scores. -/
theorem ranks_ranked {results : List (QueryResult α)}
    (h : ranked order limit scores = some results) : Ranks scores.get limit results := by
  have hbest := best_ranked order h
  refine ⟨?_, hbest.ordered, fun r hr => (mem_resultsOf order).mp (hbest.mem hr),
    fun id s hget hout => ?_⟩
  · obtain ⟨l, hperm, hsub⟩ := hbest.sublist_perm
    have hall : (l.map QueryResult.nodeId).Nodup := by
      rw [(hperm.map QueryResult.nodeId).nodup_iff, ids_resultsOf]
      exact order.nodup scores
    exact hall.sublist (hsub.map QueryResult.nodeId)
  · let left : QueryResult α := { nodeId := id, score := s, path := none }
    have hleft : left ∈ resultsOf order scores := (mem_resultsOf order).mpr ⟨hget, rfl⟩
    have hnot : left ∉ results := fun hmem =>
      hout (List.mem_map_of_mem hmem)
    refine ⟨?_, fun r hr => hbest.before_of_not_mem hr hleft hnot⟩
    by_contra hroom
    have hlen := hbest.length
    have hfit : (resultsOf order scores).length ≤ limit := by omega
    exact hnot ((hbest.perm hfit).mem_iff.mpr hleft)

end QueryContext

/-! ## The query -/

section Query
variable {α : Type} [Score α] {cls : CharClasses} {ln : α → α} {ctx : QueryContext α}
  {parts : QueryParts α} {predicate : Option Predicate} {filter : RoaringBitmap}
  {timing : FilterTiming}

namespace QueryContext

/-- If several matches are inside the filter, no one's weighted score is NaN. -/
def Sortable (ln : α → α) (cls : CharClasses) (ctx : QueryContext α) (parts : QueryParts α)
    (filter : RoaringBitmap) : Prop :=
  2 ≤ (passed (ctx.found cls parts) filter).card →
    ∀ id ∈ nodeIds (passed (ctx.found cls parts) filter),
      ¬ Score.IsNan (0 + parts.alpha * ctx.textScore ln cls parts id)

theorem keys_of_candidate {scores : FiniteMap NodeId α}
    (h : scores.get = ctx.candidate ln cls parts filter timing) :
    scores.keys = ctx.candidateIds cls parts filter timing := by
  ext id
  rw [FiniteMap.mem_keys_iff, h, candidate]
  split <;> simp [*]

variable [LawfulScore α]

/-- What is sorted at the end are the scores of the candidates. -/
theorem hybridSearch_scores (orders : MapOrders α) (limit : Nat) (hvec : ctx.NoVector parts)
    (hfilter : ctx.propIndex.filterBitmap predicate = some filter)
    (h : ctx.usePreFilter filter timing = false → ctx.TextRanks ln cls parts) :
    ∃ scores : FiniteMap NodeId α,
      ctx.hybridSearch cls ln orders parts predicate timing limit
        = ranked orders.scores limit scores ∧
      scores.get = ctx.candidate ln cls parts filter timing := by
  cases hpre : ctx.usePreFilter filter timing with
  | true =>
    refine ⟨ctx.preScores parts filter, ?_, ?_⟩
    · simp only [hybridSearch, hfilter, hpre, if_true, Option.bind_some]
    · funext id
      rw [preScores_get, candidate, candidateIds, scoreGiven, hpre]
      by_cases hscore : Score.Lt 0 (ctx.candidateScore parts)
      · simp [hscore]
      · simp [hscore]
  | false =>
    obtain ⟨scores, hscores, hget⟩ := postScores_get ln orders.found hvec (h hpre) filter
    refine ⟨scores, ?_, ?_⟩
    · simp only [hybridSearch, hfilter, hpre, Bool.false_eq_true, if_false, hscores,
        Option.bind_some]
    · funext id
      rw [hget, candidate, candidateIds, scoreGiven, hpre]
      rfl

/-- The scores of the candidates cannot be sorted only where they are those of the search. -/
theorem ranked_candidates_eq_none_iff {order : FiniteMap.IterOrder NodeId α} {limit : Nat}
    {scores : FiniteMap NodeId α} (h : scores.get = ctx.candidate ln cls parts filter timing) :
    ranked order limit scores = none ↔
      ctx.usePreFilter filter timing = false ∧ ¬ ctx.Sortable ln cls parts filter := by
  rw [ranked_eq_none_iff, keys_of_candidate h, h]
  cases hpre : ctx.usePreFilter filter timing with
  | true =>
    refine iff_of_false ?_ fun hno => absurd hno.1 (by simp)
    rintro ⟨-, id, s, hs, hnan⟩
    obtain ⟨hid, hs⟩ := Option.ite_none_right_eq_some.mp hs
    rw [candidateIds, if_pos hpre] at hid
    rw [scoreGiven, if_pos hpre, Option.some.injEq] at hs
    split at hid
    · rename_i hpos
      exact Score.not_isNan_of_lt hpos (hs ▸ hnan)
    · exact absurd hid (Finset.notMem_empty _)
  | false =>
    rw [and_iff_right rfl, Sortable, Classical.not_imp]
    simp only [candidateIds, candidate, scoreGiven, hpre, Bool.false_eq_true, if_false, not_forall,
      not_not, card_nodeIds]
    refine and_congr_right fun _ => ⟨?_, ?_⟩
    · rintro ⟨id, s, hs, hnan⟩
      obtain ⟨hid, hs⟩ := Option.ite_none_right_eq_some.mp hs
      obtain rfl := Option.some.inj hs
      exact ⟨id, hid, hnan⟩
    · rintro ⟨id, hid, hnan⟩
      exact ⟨id, _, if_pos hid, hnan⟩

theorem hybridSearch_eq_none {orders : MapOrders α} {limit : Nat}
    (hfilter : ctx.propIndex.filterBitmap predicate = some filter)
    (hpost : ctx.usePreFilter filter timing = false) (htext : ¬ ctx.TextRanks ln cls parts) :
    ctx.hybridSearch cls ln orders parts predicate timing limit = none := by
  simp only [hybridSearch, hfilter, hpost, Bool.false_eq_true, if_false,
    postScores_eq_none ln orders.found htext, Option.bind_none]

theorem textRanks_of_hybridSearch {orders : MapOrders α} {limit : Nat}
    {results : List (QueryResult α)}
    (hfilter : ctx.propIndex.filterBitmap predicate = some filter)
    (hrun : ctx.hybridSearch cls ln orders parts predicate timing limit = some results)
    (hpost : ctx.usePreFilter filter timing = false) : ctx.TextRanks ln cls parts := by
  by_contra hno
  rw [hybridSearch_eq_none hfilter hpost hno] at hrun
  cases hrun

/-- With its filter evaluated, a query panics at the text or at the sort of what is inside. -/
theorem hybridSearch_eq_none_iff {orders : MapOrders α} {limit : Nat} (hvec : ctx.NoVector parts)
    (hfilter : ctx.propIndex.filterBitmap predicate = some filter) :
    ctx.hybridSearch cls ln orders parts predicate timing limit = none ↔
      ctx.usePreFilter filter timing = false ∧
        ¬ (ctx.TextRanks ln cls parts ∧ ctx.Sortable ln cls parts filter) := by
  by_cases htext : ctx.usePreFilter filter timing = false → ctx.TextRanks ln cls parts
  · obtain ⟨scores, hrun, hget⟩ := hybridSearch_scores orders limit hvec hfilter htext
    rw [hrun, ranked_candidates_eq_none_iff hget]
    exact and_congr_right fun hpost => not_congr (and_iff_right (htext hpost)).symm
  · obtain ⟨hpost, hno⟩ := Classical.not_imp.mp htext
    exact iff_of_true (hybridSearch_eq_none hfilter hpost hno)
      ⟨hpost, fun hboth => hno hboth.1⟩

theorem exists_hybridSearch (orders : MapOrders α) (limit : Nat) (hvec : ctx.NoVector parts)
    (hfilter : ctx.propIndex.filterBitmap predicate = some filter)
    (hpost : ctx.usePreFilter filter timing = false →
      ctx.TextRanks ln cls parts ∧ ctx.Sortable ln cls parts filter) :
    ∃ results, ctx.hybridSearch cls ln orders parts predicate timing limit = some results := by
  rw [← Option.ne_none_iff_exists']
  intro hnone
  obtain ⟨hlast, hno⟩ := (hybridSearch_eq_none_iff hvec hfilter).mp hnone
  exact hno (hpost hlast)

/-- A query that returns has ranked its candidates. -/
theorem ranks_of_hybridSearch {orders : MapOrders α} {limit : Nat}
    {results : List (QueryResult α)} (hvec : ctx.NoVector parts)
    (hfilter : ctx.propIndex.filterBitmap predicate = some filter)
    (hrun : ctx.hybridSearch cls ln orders parts predicate timing limit = some results) :
    Ranks (ctx.candidate ln cls parts filter timing) limit results := by
  obtain ⟨scores, hscores, hget⟩ := hybridSearch_scores orders limit hvec hfilter
    (textRanks_of_hybridSearch hfilter hrun)
  exact hget ▸ ranks_ranked orders.scores (hscores.symm.trans hrun)

end QueryContext

variable [LawfulScore α] {orders : MapOrders α} {limit : Nat}

/-- **When a hybrid query panics.** With no vector part it does so where the predicate cannot be
evaluated and, with the filter applied last, where the text search does not go through or one of
several matches inside the filter has a weighted score that is NaN. Nowhere else. -/
theorem hybrid_eq_none_iff (hvec : ctx.NoVector parts) :
    ctx.hybridSearch cls ln orders parts predicate timing limit = none ↔
      ∀ filter, ctx.propIndex.filterBitmap predicate = some filter →
        ctx.usePreFilter filter timing = false ∧
          ¬ (ctx.TextRanks ln cls parts ∧ ctx.Sortable ln cls parts filter) := by
  cases hfilter : ctx.propIndex.filterBitmap predicate with
  | none =>
    refine iff_of_true ?_ fun filter h => absurd h (by simp)
    simp only [QueryContext.hybridSearch, hfilter]
  | some filter =>
    simp only [Option.some.injEq, forall_eq']
    exact QueryContext.hybridSearch_eq_none_iff hvec hfilter

/-- **A hybrid query returns the best of its candidates.** With no vector part these are the nodes
of the filter, all with the same score, or what the text search finds inside the filter, with the
score it has there times the weight. An empty filter is none when it is applied last. -/
theorem hybrid_ranks (orders : MapOrders α) (hvec : ctx.NoVector parts)
    (hfilter : ctx.propIndex.filterBitmap predicate = some filter) (timing : FilterTiming)
    (limit : Nat)
    (hpost : ctx.usePreFilter filter timing = false →
      ctx.TextRanks ln cls parts ∧ ctx.Sortable ln cls parts filter) :
    ∃ results, ctx.hybridSearch cls ln orders parts predicate timing limit = some results ∧
      Ranks (ctx.candidate ln cls parts filter timing) limit results := by
  obtain ⟨results, hrun⟩ := QueryContext.exists_hybridSearch orders limit hvec hfilter hpost
  exact ⟨results, hrun, QueryContext.ranks_of_hybridSearch hvec hfilter hrun⟩

end Query

/-! A query for the word of two texts. -/

def askForBoth (length : UInt32) (average : Float32) : QueryContext Float32 :=
  { ftIndex := some (twoTexts length average), vecIndex := none,
    propIndex := { eqIndexes := ∅, rangeIndexes := ∅ }, nodeCount := 10 }

def askForA (α : Type) [Score α] : QueryParts α :=
  { fulltextQuery := some "a", vectorQuery := none, vectorK := none, vectorEf := none, alpha := 1,
    beta := 0 }

noncomputable def anyOrders (α : Type) : MapOrders α :=
  { found := FiniteMap.IterOrder.choice _ _, scores := FiniteMap.IterOrder.choice _ _ }

/-- Two texts of no length, in an index whose average was never set. -/
theorem hybrid_eq_none_iff_two :
    (askForBoth 0 0).hybridSearch asciiClasses Float32.log (anyOrders _) (askForA _) none .post 10
      = none := by
  refine (hybrid_eq_none_iff (Or.inl rfl)).mpr fun filter hfilter => ⟨rfl, fun h => ?_⟩
  obtain ⟨-, hcmp⟩ := h.1 _ _ rfl rfl
  have hmem : (7 : NodeId) ∈ nodeIds ((twoTexts 0 0).matched asciiClasses "a") := by decide
  exact hcmp (by decide) 7 hmem
    (FullTextIndex.isNan_score_of_empty Float32.log rfl (by decide) hmem)

theorem hybrid_ranks_two :
    ∃ results, (askForBoth 2 2).hybridSearch asciiClasses lnOfSixFifths (anyOrders _) (askForA _)
        none .post 10 = some results ∧
      Ranks ((askForBoth 2 2).candidate lnOfSixFifths asciiClasses (askForA _) ∅ .post) 10
        results := by
  refine hybrid_ranks (anyOrders _) (Or.inl rfl) rfl .post 10 fun _ => ⟨?_, fun _ id hid => ?_⟩
  · exact (QueryContext.textRanks_iff rfl rfl).mpr ⟨twoTexts_answers 2 2, twoTexts_comparable⟩
  · have hfound : QueryContext.passed ((askForBoth 2 2).found asciiClasses (askForA Float32)) ∅
        = {7, 8} := rfl
    rw [hfound] at hid
    obtain rfl | rfl : id = 7 ∨ id = 8 := by
      simpa [nodeIds] using hid
    · decide +kernel
    · decide +kernel

end LightGraph
