/-
Locations of files. Path and base directory are followed to their ends first,
so neither links nor two dots lead out of the base unnoticed.
-/
import ContentChunks.FileSystem.Walk
import ContentChunks.Location

namespace ContentChunks

/-- A file's name as text. -/
def segmentOf (name : Bytes) : Except Error String :=
  match Utf8.text? name with
  | some segment => .ok segment
  | none => .error (.invalidSegment (Utf8.lossy name))

/-- The location under `base` of the file that `p` leads to. -/
def Location.resolve (fs : FileSystem) (p base : Path) : Except Error Location := do
  let place ← (fs.canonical p).mapError fun fault => .asset p (.os fault)
  let basePlace ← (fs.canonical base).mapError fun fault => .asset base (.os fault)
  let outside := Error.outsideBase place.path basePlace.path
  if !basePlace.isPrefixOf place then throw outside
  let names := place.drop basePlace.length
  let segments ← names.mapM segmentOf
  if segments = [] then throw outside
  Location.ofSegments segments

end ContentChunks
