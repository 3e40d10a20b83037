/-
Chunks: a range of an asset together with the signature of the bytes in it,
and the neighbours of a chunk in its sequence.
-/
import ContentChunks.Location
import ContentChunks.Range

namespace ContentChunks

/-- A range of an asset with the signature of its bytes. -/
structure Chunk where
  location : Location
  range : Range
  signature : Signature
deriving DecidableEq, Repr

namespace Chunk

def length (c : Chunk) : Nat := c.range.length

def isEmpty (c : Chunk) : Bool := c.range.isEmpty

/-- Whether the chunk is of a binary asset. -/
def isBinary (c : Chunk) : Bool := !c.range.isText

def display (c : Chunk) : String :=
  "Chunk(" ++ c.location.display ++ " @ " ++ c.range.display ++ ", " ++ toString c.length ++
    " bytes, " ++ c.signature.text ++ ")"

/-- The chunks before and after a chunk in its sequence. -/
structure Context where
  previous : Option Chunk
  next : Option Chunk
deriving DecidableEq, Repr

/-- The neighbours of the chunk at a place; a place past the end has none. -/
def Context.at (chunks : List Chunk) (index : Nat) : Context :=
  if index < chunks.length then
    ⟨if index = 0 then none else chunks[index - 1]?, chunks[index + 1]?⟩
  else ⟨none, none⟩

end Chunk

end ContentChunks
