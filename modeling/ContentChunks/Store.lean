/-
Stores. A store keeps payloads in a directory, each in a file of its own whose
path is the key of its signature; a payload that is there already is not
written again.
-/
import ContentChunks.Config
import ContentChunks.FileSystem.Change
import ContentChunks.Hasher
import ContentChunks.Key
import ContentChunks.Chunk

namespace ContentChunks

/-- A directory of payloads. -/
structure Store where
  root : Path
  config : StoreConfig
deriving DecidableEq, Repr

namespace Store

/-- Opens a store; its directory is made if need be. -/
def openAt (fs : FileSystem) (root : Path) (config : StoreConfig) : Except Error Store × FileSystem :=
  match config.check with
  | .error e => (.error e, fs)
  | .ok () =>
    match fs.makeDirectories root with
    | (.error fault, fs) => (.error (.asset root (.os fault)), fs)
    | (.ok (), fs) => (.ok ⟨root, config⟩, fs)

/-- The names of a chunk's key. -/
def key (s : Store) (c : Chunk) : List Bytes := Key.names c.signature s.config.segmentWidth

/-- The path of a signature's object. -/
def path (s : Store) (signature : Signature) : Path := Key.path s.root signature s.config.segmentWidth

/-- Whether the store has the payload of a signature. -/
def contains (s : Store) (fs : FileSystem) (signature : Signature) : Bool :=
  signature.algorithm = s.config.algorithm && fs.isFile (s.path signature)

def get (s : Store) (fs : FileSystem) (signature : Signature) : Except Error Bytes :=
  match fs.contentAt (s.path signature) with
  | .error .notFound => .error (.notFound signature)
  | .error fault => .error (.asset (s.path signature) (.os fault))
  | .ok data =>
    let actual := Signature.of signature.algorithm data
    if s.config.verifyReads ∧ actual ≠ signature then .error (.signatureMismatch signature actual)
    else .ok data

/-- Removes the payload of a signature; tells whether there was one. -/
def delete (s : Store) (fs : FileSystem) (signature : Signature) : Except Error Bool × FileSystem :=
  match fs.unlink (s.path signature) with
  | .ok fs => (.ok true, fs)
  | .error .notFound => (.ok false, fs)
  | .error fault => (.error (.asset (s.path signature) (.os fault)), fs)

end Store

end ContentChunks
