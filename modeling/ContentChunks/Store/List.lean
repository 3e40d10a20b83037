/-
Listing a store: one item for each file below its root, the signature that the
file's path is the key of, or why it is none. Temporary files are left out; a
directory that cannot be read is an item of its own.
-/
import ContentChunks.FileSystem.Listing
import ContentChunks.Store.Put

namespace ContentChunks.Store

/-- Whether a name is that of a temporary file. -/
def isTemporary (name : Bytes) : Bool := (Utf8.text? name).isSome && temporary.isPrefixOf name

/-- The item for what stands below the root; only files and faults have one. -/
def item? (s : Store) (names : Place) : Except OsFault Node → Option (Except Error Signature)
  | .error fault => some (.error (.asset (s.root.push (Path.join names)) (.os fault)))
  | .ok (.file _) =>
    if isTemporary (names.getLast?.getD []) then none
    else some (Key.signature ⟨Path.join names⟩ s.config.algorithm s.config.segmentWidth)
  | .ok _ => none

/-- The items of a store; if its root cannot be read, that is the only item. -/
def list (s : Store) (fs : FileSystem) : List (Except Error Signature) :=
  match fs.seenBelow s.root with
  | .error fault => [.error (.asset s.root (.os fault))]
  | .ok seen => seen.filterMap fun (names, node) => s.item? names node

/-- The signatures in a store. -/
def signatures (s : Store) (fs : FileSystem) : List Signature := (s.list fs).filterMap fun item => item.toOption

end ContentChunks.Store
