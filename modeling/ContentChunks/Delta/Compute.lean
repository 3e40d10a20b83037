/-
Computing a delta. Chunks are matched by signature first. The text chunks that
are left on both sides are loaded, each pair of them is scored by the
similarity of their words, and pairs are taken from the best downwards.
-/
import ContentChunks.Config
import ContentChunks.Delta
import ContentChunks.Delta.Cancel
import ContentChunks.Delta.Codes
import ContentChunks.Delta.Loading
import ContentChunks.Delta.Pairing
import ContentChunks.Matching

namespace ContentChunks

/-- A chunk that the other revision lacks, with its place in its own. -/
structure Leftover where
  index : Nat
  chunk : Chunk
deriving DecidableEq, Repr

namespace Leftover

def isText (c : Leftover) : Bool := !c.chunk.isBinary

/-- The chunks whose signature does not occur in the other revision, in order. -/
def of (chunks other : List Chunk) : List Leftover :=
  (chunks.zipIdx.filter fun (c, _) => !other.any fun d => d.signature == c.signature).map
    fun (c, i) => ⟨i, c⟩

end Leftover

/-- The signatures that occur in both revisions, by their first occurrence in
the old one. -/
def Common.of (old new : List Chunk) : List Common :=
  let shared := (old.map (·.signature)).eraseDups.filter fun s => new.any fun c => c.signature == s
  shared.map fun s => ⟨s, old.filter fun c => c.signature == s, new.filter fun c => c.signature == s⟩

/-- Whether two neighbours have the same signature; a missing one has none. -/
def sameNeighbour : Option Chunk → Option Chunk → Bool
  | some c, some d => c.signature == d.signature
  | _, _ => false

/-- On how many sides two chunks have neighbours of the same signature. -/
def sharedNeighbours (c d : Chunk.Context) : Nat :=
  (sameNeighbour c.previous d.previous).toNat + (sameNeighbour c.next d.next).toNat

namespace Delta

/-- The score of a pair: the similarity of the words, and the bonus for each
shared neighbour. -/
def score (bonus : Nat) (old new : List Chunk) (c d : Leftover) (cs ds : List Nat) : Nat :=
  let shared := sharedNeighbours (Chunk.Context.at old c.index) (Chunk.Context.at new d.index)
  min Matching.scoreLimit (Matching.similarity cs ds + min Matching.scoreLimit (bonus * shared))

/-- The scores of all pairs of a removed text and an added one. -/
def scores (bonus : Nat) (old new : List Chunk) (removed added : List (Leftover × List Nat)) :
    List ScoredPair :=
  removed.flatMap fun (c, cs) => added.map fun (d, ds) =>
    ⟨score bonus old new c d cs ds, c.index, d.index⟩

/-- Loads the texts and pairs them, if there are texts on both sides. -/
def pairs (config : DeltaConfig) (flag : CancelFlag) (source : Source) (old new : List Chunk)
    (removed added : List Leftover) : Loading (List ScoredPair) := do
  if removed.isEmpty || added.isEmpty then return []
  let removedPayloads ← removed.mapM fun c => Loading.load source c.chunk
  let addedPayloads ← added.mapM fun c => Loading.load source c.chunk
  let (removedCodes, table) := (CodeTable.numberAll removedPayloads).run .empty
  let (addedCodes, _) := (CodeTable.numberAll addedPayloads).run table
  if flag.seen (removed.length + added.length) (removed.length * added.length) then
    Loading.fail .cancelled
  else
    return ScoredPair.assign config.minScore
      (scores config.adjacencyBonus old new (removed.zip removedCodes) (added.zip addedCodes))

/-- The changed chunks that the pairs tell of, in the order of their origins. -/
def changedBy (pairs : List ScoredPair) (removed added : List Leftover) : List Changed :=
  removed.filterMap fun c => do
    let p ← pairs.find? fun p => p.old == c.index
    let d ← added.find? fun d => d.index == p.new
    return ⟨c.chunk, d.chunk, p.score⟩

/-- The delta that the pairs and the leftovers make. -/
def assemble (old new : List Chunk) (pairs : List ScoredPair) : Delta :=
  let removed := Leftover.of old new
  let added := Leftover.of new old
  ⟨Common.of old new, changedBy pairs removed added,
    (removed.filter fun c => !pairs.any fun p => p.old == c.index).map (·.chunk),
    (added.filter fun c => !pairs.any fun p => p.new == c.index).map (·.chunk)⟩

/-- How `new` differs from `old`, unless the caller gives up. -/
def computeUnless (flag : CancelFlag) (config : DeltaConfig) (source : Source) (old new : List Chunk) :
    Loading Delta := do
  let pairs ← pairs config flag source old new ((Leftover.of old new).filter Leftover.isText)
    ((Leftover.of new old).filter Leftover.isText)
  return assemble old new pairs

/-- How `new` differs from `old`. -/
def compute (config : DeltaConfig) (source : Source) (old new : List Chunk) : Loading Delta :=
  computeUnless .never config source old new

end Delta

end ContentChunks
