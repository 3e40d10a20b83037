/-
Deltas: what became of the chunks of one revision in another. A chunk whose
signature occurs in both revisions is common; of the others, some text chunks
are paired as changed, and what is left was removed or added.
-/
import ContentChunks.Chunk

namespace ContentChunks

/-- A signature that occurs in both revisions, with all its chunks. -/
structure Common where
  signature : Signature
  old : List Chunk
  new : List Chunk
deriving DecidableEq, Repr

/-- A chunk that became another one, and how similar they are. -/
structure Changed where
  origin : Chunk
  chunk : Chunk
  score : Nat
deriving DecidableEq, Repr

/-- How two revisions differ. -/
structure Delta where
  common : List Common
  changed : List Changed
  removed : List Chunk
  added : List Chunk
deriving DecidableEq, Repr

/-- Whether no chunk was changed, removed or added. -/
def Delta.isUnchanged (d : Delta) : Bool := d.changed.isEmpty && d.removed.isEmpty && d.added.isEmpty

end ContentChunks
