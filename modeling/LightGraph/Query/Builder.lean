import LightGraph.Query.HybridSearch

/-!
# The query builder

`query/builder.rs`, with `query/plan.rs` and `query/fusion.rs`. A query is put together call by
call and then built into a plan, in which all the filters have become one predicate. Floats are
taken from a type with a zero and a one. No call sets the traversal.
-/

set_option autoImplicit false

namespace LightGraph

inductive FusionMethod (α : Type)
  /-- `score = alpha * BM25 + beta * cosine_similarity` -/
  | weightedSum (alpha beta : α)
  /-- `score = sum(1 / (k + rank_i))` -/
  | reciprocalRankFusion (k : α)
  /-- `score = λ * BM25 + (1 - λ) * cosine` -/
  | convex (lambda : α)

inductive Direction
  | out
  | into
  | both

structure TraversalClause where
  etype : String
  direction : Direction
  minDepth : Nat
  maxDepth : Nat
  edgePredicates : List Predicate
  nodePredicates : List Predicate

structure QueryPlan (α : Type) where
  fulltextProp : Option String
  fulltextText : Option String
  vectorProp : Option String
  vectorQuery : Option (List α)
  vectorK : Nat
  vectorEf : Nat
  predicate : Option Predicate
  fusion : FusionMethod α
  filterTiming : FilterTiming
  traversal : Option TraversalClause
  limit : Nat

structure QueryBuilder (α : Type) where
  fulltextText : Option String
  fulltextProp : Option String
  vectorProp : Option String
  vectorQuery : Option (List α)
  vectorK : Nat
  vectorEf : Nat
  predicates : List Predicate
  fusionMethod : FusionMethod α
  timing : FilterTiming
  traversal : Option TraversalClause
  maxResults : Nat

namespace QueryBuilder
variable {α : Type}

def new [Zero α] [One α] : QueryBuilder α :=
  { fulltextText := none, fulltextProp := none, vectorProp := none, vectorQuery := none
    vectorK := 20, vectorEf := 200, predicates := [], fusionMethod := .weightedSum 1 0
    timing := .adaptive, traversal := none, maxResults := 20 }

def fulltext (b : QueryBuilder α) (property query : String) : QueryBuilder α :=
  { b with fulltextProp := some property, fulltextText := some query }

def vector (b : QueryBuilder α) (property : String) (query : List α) (k ef : Nat) :
    QueryBuilder α :=
  { b with vectorProp := some property, vectorQuery := some query, vectorK := k, vectorEf := ef }

def filter (b : QueryBuilder α) (pred : Predicate) : QueryBuilder α :=
  { b with predicates := b.predicates ++ [pred] }

def fusion (b : QueryBuilder α) (method : FusionMethod α) : QueryBuilder α :=
  { b with fusionMethod := method }

def filterTiming (b : QueryBuilder α) (timing : FilterTiming) : QueryBuilder α :=
  { b with timing := timing }

def limit (b : QueryBuilder α) (n : Nat) : QueryBuilder α := { b with maxResults := n }

/-- `reduce` with `And`, from the left. -/
def combinedPred : List Predicate → Option Predicate
  | [] => none
  | p :: ps => some (ps.foldl .and p)

def build (b : QueryBuilder α) : QueryPlan α :=
  { fulltextProp := b.fulltextProp, fulltextText := b.fulltextText, vectorProp := b.vectorProp
    vectorQuery := b.vectorQuery, vectorK := b.vectorK, vectorEf := b.vectorEf
    predicate := combinedPred b.predicates, fusion := b.fusionMethod, filterTiming := b.timing
    traversal := b.traversal, limit := b.maxResults }

end QueryBuilder

/-- A call in a chain. -/
inductive BuilderCall (α : Type)
  | fulltext (property query : String)
  | vector (property : String) (query : List α) (k ef : Nat)
  | filter (pred : Predicate)
  | fusion (method : FusionMethod α)
  | filterTiming (timing : FilterTiming)
  | limit (n : Nat)

namespace QueryBuilder
variable {α : Type}

def call (b : QueryBuilder α) : BuilderCall α → QueryBuilder α
  | .fulltext property query => b.fulltext property query
  | .vector property query k ef => b.vector property query k ef
  | .filter pred => b.filter pred
  | .fusion method => b.fusion method
  | .filterTiming timing => b.filterTiming timing
  | .limit n => b.limit n

def chain [Zero α] [One α] (calls : List (BuilderCall α)) : QueryBuilder α :=
  calls.foldl call new

end QueryBuilder
end LightGraph
