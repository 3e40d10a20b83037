/-
Assets in a file system: reading the bytes of a chunk back, signatures of
files, and the chunks of files. An asset stays open while its chunks are taken
one by one, and what is written to it meanwhile is seen.
-/
import ContentChunks.Chunker.Stream
import ContentChunks.FileSystem.Open
import ContentChunks.Location.Resolve

namespace ContentChunks

/-- Opens a path; a failure names it. -/
def FileSystem.openAsset (fs : FileSystem) (p : Path) : Except Error Opened :=
  (fs.openAt p).mapError fun fault => .asset p (.os fault)

/-- The bytes of a chunk, read from its asset under `base`. -/
def Chunk.read (fs : FileSystem) (c : Chunk) (base : Path) : Except Error Bytes := do
  let p := c.location.toPath base
  let opened ← fs.openAsset p
  (c.readFrom (fs.reader opened)).1.mapError (Error.on p)

/-- The signature of a range of a file, from `start`, or the beginning, to
`stop`, or the end. -/
def Signature.ofPath (fs : FileSystem) (p : Path) (start stop : Option Nat) (algorithm : Algorithm) :
    Except Error Signature := do
  let opened ← fs.openAsset p
  ((fs.reader opened).signature start stop algorithm Reader.defaultBlock).1.mapError (Error.on p)

/-- An asset whose chunks are taken one by one. -/
structure AssetStream where
  opened : Opened
  stream : Stream

namespace AssetStream

def ofPath (fs : FileSystem) (config : ChunkConfig) (p base : Path) : Except Error AssetStream := do
  let location ← Location.resolve fs p base
  let opened ← fs.openAsset p
  return ⟨opened, .of (fs.reader opened) location config (some p)⟩

/-- The stream with what there is to read now. -/
def refreshed (s : AssetStream) (fs : FileSystem) : Stream :=
  { s.stream with reader := s.stream.reader.renew (fs.data s.opened) (fs.script s.opened) }

/-- The next chunk, or the failure that ends the stream; nothing at its end. -/
def next (s : AssetStream) (fs : FileSystem) : Option (Except Error Chunk) × AssetStream :=
  let (item, stream) := (s.refreshed fs).next
  (item, { s with stream })

end AssetStream

/-- The chunks of the file at a path under `base`. -/
def Chunk.ofFile (fs : FileSystem) (config : ChunkConfig) (p base : Path) : Except Error (List Chunk) := do
  (← AssetStream.ofPath fs config p base).stream.toList

/-- The chunks of several files, each with its own failure. -/
def Chunk.ofFiles (fs : FileSystem) (config : ChunkConfig) (paths : List Path) (base : Path) :
    List (Except Error (List Chunk)) :=
  paths.map fun p => Chunk.ofFile fs config p base

end ContentChunks
