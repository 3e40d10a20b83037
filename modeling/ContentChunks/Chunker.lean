/-
Chunking an asset that is in memory. A binary asset is one chunk, a text is
cut at its blank runs; the chunks cover the asset from its first byte to its
last.
-/
import ContentChunks.Chunk
import ContentChunks.Config
import ContentChunks.Hasher
import ContentChunks.Kind
import ContentChunks.Splitter

namespace ContentChunks

def Cursor.toTextPosition (c : Cursor) : TextPosition := ⟨c.offset, some c.line, some c.column⟩

def Span.toRange (s : Span) : Range := .text s.start.toTextPosition s.stop.toTextPosition

/-- The chunks of an asset. -/
def Chunk.ofAsset (config : ChunkConfig) (location : Location) (data : Bytes) : List Chunk :=
  match Kind.of data config.binarySample with
  | .binary => [⟨location, .bytes 0 data.length, .of config.algorithm data⟩]
  | .text => (Splitter.spans data).map fun s =>
    ⟨location, s.toRange, .of config.algorithm (data.slice s.start.offset s.stop.offset)⟩

end ContentChunks
