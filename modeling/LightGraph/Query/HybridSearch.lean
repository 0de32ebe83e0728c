import LightGraph.Index.Fulltext

/-!
# The hybrid query

`query/mod.rs`. A predicate becomes a bitmap, and the bitmap is applied before the scoring or
after it. Before, every node of the bitmap is a candidate and gets a flat score for each part of
the query; after, the parts are searched and what they find is cut down to the bitmap. Which one is
the caller's choice, or that of the share of nodes the bitmap has.

The vector index is a placeholder: its search does not come back. Neither does a query whose scores
cannot be sorted.
-/

set_option autoImplicit false

namespace LightGraph

open Lib

structure QueryResult (α : Type) where
  nodeId : NodeId
  score : α
  /-- the path to the node, where there was a traversal -/
  path : Option (List NodeId)

inductive FilterTiming
  | pre
  | post
  /-- by the share of nodes that pass the filter -/
  | adaptive
  deriving DecidableEq

structure VectorIndex where
  dim : Nat

namespace VectorIndex
variable {α : Type}

/-- The placeholder behind the search. -/
def hnswSearch (_query : List α) (_k _ef : Nat) : Option (List (NodeId × α)) := none

def search (vi : VectorIndex) (query : List α) (k ef : Nat) : Option (List (NodeId × α)) :=
  if query.length = vi.dim then hnswSearch query k ef else none

end VectorIndex

structure QueryContext (α : Type) where
  ftIndex : Option (FullTextIndex α)
  vecIndex : Option VectorIndex
  propIndex : PropertyIndex
  nodeCount : UInt64

/-- What a query asks for, apart from the predicate and its timing. -/
structure QueryParts (α : Type) where
  fulltextQuery : Option String
  vectorQuery : Option (List α)
  vectorK : Option Nat
  vectorEf : Option Nat
  alpha : α
  beta : α

/-- The orders in which the two hash maps of a query are iterated. -/
structure MapOrders (α : Type) where
  found : FiniteMap.IterOrder NodeId α
  scores : FiniteMap.IterOrder NodeId α

/-- The bitmap of an optional predicate; none at all has the empty one. -/
def PropertyIndex.filterBitmap (ix : PropertyIndex) : Option Predicate → Option RoaringBitmap
  | none => some ∅
  | some p => ix.evaluate p

section Scores
variable {α : Type} [Score α]

namespace QueryContext

def selectivity (ctx : QueryContext α) (filter : RoaringBitmap) : α :=
  if 0 < ctx.nodeCount then Score.ofNat filter.card / Score.ofNat ctx.nodeCount.toNat else 0

def usePreFilter (ctx : QueryContext α) (filter : RoaringBitmap) : FilterTiming → Bool
  | .pre => true
  | .post => false
  | .adaptive => Score.Lt (ctx.selectivity filter) (Score.fraction 1 10)

/-- The score of a candidate. Neither part looks at the node. -/
def candidateScore (ctx : QueryContext α) (parts : QueryParts α) : α :=
  let score : α := 0
  let score :=
    match ctx.ftIndex, parts.fulltextQuery with
    | some _, some _ => score + parts.alpha * 1
    | _, _ => score
  match ctx.vecIndex, parts.vectorQuery with
  | some _, some _ => score + parts.beta * 1
  | _, _ => score

/-- Only score candidates that pass the predicate. -/
def preScores (ctx : QueryContext α) (parts : QueryParts α) (filter : RoaringBitmap) :
    FiniteMap NodeId α :=
  (RoaringBitmap.iter filter).foldl (fun scores id =>
    if Score.Lt 0 (ctx.candidateScore parts) then scores.put id.toUInt64 (ctx.candidateScore parts)
    else scores) ∅

/-- One part's finds, added to the scores with the part's weight. -/
def addFound (weight : α) (scores : FiniteMap NodeId α) (found : List (NodeId × α)) :
    FiniteMap NodeId α :=
  found.foldl (fun scores (id, s) => addScore scores id (weight * s)) scores

/-- What the full-text index finds. -/
def textScores (cls : CharClasses) (ln : α → α) (order : FiniteMap.IterOrder NodeId α)
    (ctx : QueryContext α) (parts : QueryParts α) : Option (FiniteMap NodeId α) :=
  match ctx.ftIndex, parts.fulltextQuery with
  | some ft, some q => (ft.search cls ln order q).map (addFound parts.alpha ∅)
  | _, _ => some ∅

/-- What the vector index finds on top. -/
def vectorScores (ctx : QueryContext α) (parts : QueryParts α) (scores : FiniteMap NodeId α) :
    Option (FiniteMap NodeId α) :=
  match ctx.vecIndex, parts.vectorQuery with
  | some vi, some vq =>
    (vi.search vq (parts.vectorK.getD 50) (parts.vectorEf.getD 200)).map
      (addFound parts.beta scores)
  | _, _ => some scores

/-- Score all, then intersect with the predicate bitmap. -/
def postScores (cls : CharClasses) (ln : α → α) (order : FiniteMap.IterOrder NodeId α)
    (ctx : QueryContext α) (parts : QueryParts α) (filter : RoaringBitmap) :
    Option (FiniteMap NodeId α) :=
  match ctx.textScores cls ln order parts with
  | none => none
  | some scores =>
    match ctx.vectorScores parts scores with
    | none => none
    | some scores =>
      -- remove candidates outside the filter
      if filter = ∅ then some scores
      else some (scores.retain fun id _ => id.toUInt32 ∈ filter)

/-- The scores as results, in the order the map hands them out. -/
def resultsOf (order : FiniteMap.IterOrder NodeId α) (scores : FiniteMap NodeId α) :
    List (QueryResult α) :=
  (order.entries scores).map fun (nodeId, score) => { nodeId, score, path := none }

/-- The best `limit` of them. -/
def ranked (order : FiniteMap.IterOrder NodeId α) (limit : Nat) (scores : FiniteMap NodeId α) :
    Option (List (QueryResult α)) :=
  (sortDescending QueryResult.score (resultsOf order scores)).map (List.take limit)

def hybridSearch (cls : CharClasses) (ln : α → α) (orders : MapOrders α) (ctx : QueryContext α)
    (parts : QueryParts α) (predicate : Option Predicate) (timing : FilterTiming) (limit : Nat) :
    Option (List (QueryResult α)) :=
  match ctx.propIndex.filterBitmap predicate with
  | none => none
  | some filter =>
    let scores :=
      if ctx.usePreFilter filter timing then some (ctx.preScores parts filter)
      else ctx.postScores cls ln orders.found parts filter
    scores.bind (ranked orders.scores limit)

end QueryContext
end Scores
end LightGraph
