/-
Change records: a delta as the steps that make the new revision of the old
one, each with the payload it needs and the neighbours of its chunk. Chunks
are deleted in old order, then created and updated in new order.
-/
import ContentChunks.Delta
import ContentChunks.Delta.Loading
import ContentChunks.Order

namespace ContentChunks

/-- A step from one revision to another. -/
inductive Change where
  | create (data : Bytes) (chunk : Chunk) (context : Chunk.Context)
  | delete (chunk : Chunk) (context : Chunk.Context)
  | update (data : Bytes) (chunk origin : Chunk) (context : Chunk.Context)
deriving DecidableEq, Repr

/-- The chunk that a step is about; for an update the new one. -/
def Change.chunk : Change → Chunk
  | create _ chunk _ => chunk
  | delete chunk _ => chunk
  | update _ chunk _ _ => chunk

/-- The neighbours of the first chunk that equals `chunk`; one that does not
occur has none. -/
def Chunk.Context.of (chunks : List Chunk) (chunk : Chunk) : Chunk.Context :=
  match chunks.idxOf? chunk with
  | some index => .at chunks index
  | none => ⟨none, none⟩

/-- The steps in the order of their chunks in a revision; those whose chunk
does not occur come first. -/
def Change.inOrderOf (chunks : List Chunk) (changes : List Change) : List Change :=
  changes.mergeSort fun x y =>
    unknownFirst (chunks.idxOf? x.chunk) ≤ unknownFirst (chunks.idxOf? y.chunk)

def Delta.changes (d : Delta) (source : Source) (old new : List Chunk) : Loading (List Change) := do
  let deleted := d.removed.map fun chunk => Change.delete chunk (.of old chunk)
  let created ← d.added.mapM fun chunk => do
    return Change.create (← Loading.load source chunk) chunk (.of new chunk)
  let updated ← d.changed.mapM fun changed => do
    return Change.update (← Loading.load source changed.chunk) changed.chunk changed.origin
      (.of new changed.chunk)
  return deleted ++ Change.inOrderOf new (created ++ updated)

end ContentChunks
