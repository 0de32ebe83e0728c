import LightGraph.Lib.Utf8
import LightGraph.Index.Property
import LightGraph.Index.Scorer

/-!
# The full-text index

`index/fulltext`. A query is cut into tokens, each token's term is looked up in the dictionary, and
every node of its posting list gets the term's score added to its own. The logarithm, which
characters are letters and which digits, and the order in which a hash map hands out its entries are
parameters.

A posting list is indexed by what the dictionary says, unchecked. A number past the end is a panic,
as is a score that is not a number where another is there to be compared with it; both are `none`
here.
-/

set_option autoImplicit false

namespace LightGraph

open Lib

/-! ## The analyzer -/

/-- What the analyzer asks the standard library about a character. -/
structure CharClasses where
  isAlphabetic : Char → Bool
  isNumeric : Char → Bool
  toLowercase : Char → List Char

structure Token where
  term : String
  position : UInt32

def isCjk (c : Char) : Bool :=
  (0x4E00 ≤ c.val && c.val ≤ 0x9FFF)      -- unified ideographs
    || (0x3400 ≤ c.val && c.val ≤ 0x4DBF) -- extension A
    || (0xF900 ≤ c.val && c.val ≤ 0xFAFF) -- compatibility
    || (0x3040 ≤ c.val && c.val ≤ 0x309F) -- hiragana
    || (0x30A0 ≤ c.val && c.val ≤ 0x30FF) -- katakana
    || (0xAC00 ≤ c.val && c.val ≤ 0xD7AF) -- hangul

namespace CjkAnalyzer
variable (cls : CharClasses)

/-- The loop over the characters. Every round takes at least one of them. -/
def tokenizeLoop : Nat → List Char → UInt32 → List Token
  | 0, _, _ => []
  | _, [], _ => []
  | rounds + 1, c :: rest, pos =>
    if isCjk c then
      match rest.head? with
      | some d =>
        if isCjk d then
          { term := String.ofList [c, d], position := pos }
            :: { term := String.ofList [c], position := pos + 1 }
            :: tokenizeLoop rounds rest (pos + 2)
        else { term := String.ofList [c], position := pos } :: tokenizeLoop rounds rest (pos + 1)
      | none => { term := String.ofList [c], position := pos } :: tokenizeLoop rounds rest (pos + 1)
    else if cls.isAlphabetic c then
      let word := (c :: rest).takeWhile cls.isAlphabetic
      { term := String.ofList (word.flatMap cls.toLowercase), position := pos }
        :: tokenizeLoop rounds ((c :: rest).dropWhile cls.isAlphabetic) (pos + 1)
    else if cls.isNumeric c then
      { term := String.ofList ((c :: rest).takeWhile cls.isNumeric), position := pos }
        :: tokenizeLoop rounds ((c :: rest).dropWhile cls.isNumeric) (pos + 1)
    else tokenizeLoop rounds rest pos

def tokenize (text : String) : List Token := tokenizeLoop cls text.toList.length text.toList 0

end CjkAnalyzer

/-! ## The index -/

structure FullTextIndex (α : Type) where
  /-- the number of a term -/
  fst : Option (FiniteMap Bytes UInt64)
  postings : List RoaringBitmap
  /-- where the terms stand in the nodes -/
  positions : List (FiniteMap NodeId (List UInt32))
  docLengths : FiniteMap NodeId UInt32
  totalDocs : UInt64
  /-- as the scores read it: a double, rounded to a score -/
  avgDocLength : α

section Scores
variable {α : Type} [Score α]

/-- `*scores.entry(id).or_default() += score`. -/
def addScore (scores : FiniteMap NodeId α) (id : NodeId) (score : α) : FiniteMap NodeId α :=
  scores.put id ((scores.get id).getD 0 + score)

namespace FullTextIndex

def countTf (ft : FullTextIndex α) (ordinal : Nat) (id : NodeId) : α :=
  match ft.positions[ordinal]? with
  | none => 1
  | some map =>
    match map.get id with
    | none => 1
    | some v => Score.ofNat v.length

/-- The score of one node for one term. -/
def termScore (ln : α → α) (ft : FullTextIndex α) (ordinal : Nat) (posting : RoaringBitmap)
    (id : NodeId) : α :=
  let dl : α :=
    match ft.docLengths.get id with
    | none => 1
    | some n => Score.ofNat n.toNat
  bm25Score ln (ft.countTf ordinal id) (Score.ofNatAsF64 posting.card) dl ft.avgDocLength
    (Score.ofNatAsF64 ft.totalDocs.toNat)

/-- The loop over the tokens. -/
def scoreTokens (ln : α → α) (ft : FullTextIndex α) (fst : FiniteMap Bytes UInt64) :
    List Token → FiniteMap NodeId α → Option (FiniteMap NodeId α)
  | [], results => some results
  | token :: tokens, results =>
    match fst.get (utf8Bytes token.term) with
    | none => scoreTokens ln ft fst tokens results
    | some ordinal =>
      match ft.postings[ordinal.toNat]? with
      | none => none
      | some posting =>
        scoreTokens ln ft fst tokens ((RoaringBitmap.iter posting).foldl (fun results id =>
          addScore results id.toUInt64
            (ft.termScore ln ordinal.toNat posting id.toUInt64)) results)

def search (cls : CharClasses) (ln : α → α)
    (order : FiniteMap.IterOrder NodeId α) (ft : FullTextIndex α) (query : String) :
    Option (List (NodeId × α)) :=
  let tokens := CjkAnalyzer.tokenize cls query
  let results :=
    match ft.fst with
    | none => some ∅
    | some fst => ft.scoreTokens ln fst tokens ∅
  match results with
  | none => none
  | some results => sortDescending Prod.snd (order.entries results)

end FullTextIndex
end Scores
end LightGraph
