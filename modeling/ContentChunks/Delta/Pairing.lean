/-
Pairing by score. Pairs are taken from the best downwards, each if neither of
its chunks is taken already; of equally good pairs the one whose old chunk
comes first is better, then the one whose new chunk comes first.
-/
import ContentChunks.Order

namespace ContentChunks

/-- How well an old chunk and a new one go together; they are told by their
places in their revisions. -/
structure ScoredPair where
  score : Nat
  old : Nat
  new : Nat
deriving DecidableEq, Repr

namespace ScoredPair

/-- The better pair comes first. -/
instance : Ord ScoredPair where
  compare p q := (compare q.score p.score).then ((compare p.old q.old).then (compare p.new q.new))

/-- Whether two pairs have a chunk in common. -/
def meets (p q : ScoredPair) : Bool := p.old == q.old || p.new == q.new

/-- Takes each pair in turn that meets none of those taken; the last taken is the first of `taken`. -/
def takeFree (taken : List ScoredPair) : List ScoredPair → List ScoredPair
  | [] => taken.reverse
  | p :: rest => if taken.any p.meets then takeFree taken rest else takeFree (p :: taken) rest

/-- The pairs to keep, the best first: none scores less than `minScore`. -/
def assign (minScore : Nat) (pairs : List ScoredPair) : List ScoredPair :=
  takeFree [] (sorted (pairs.filter fun p => minScore ≤ p.score))

end ScoredPair

end ContentChunks
