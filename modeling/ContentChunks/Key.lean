/-
Keys: where a store keeps the object of a signature. The symbols of the digest
in base 32 are cut into names of one width, the last one perhaps shorter; all
but the last are directories, and the last has the extension of an object.
-/
import ContentChunks.Signature.Checked

namespace ContentChunks.Key

/-- What the name of an object ends with. -/
def ending : Bytes := Bytes.ofText ".chunk"

/-- The symbols of a signature's digest, cut into names; a width of zero counts as one. -/
def names (signature : Signature) (width : Nat) : List Bytes :=
  Base32.rows width (Base32.encode signature.digest)

/-- The path of a signature's object under `root`; an empty digest has no name. -/
def path (root : Path) (signature : Signature) (width : Nat) : Path :=
  match (names signature width).reverse with
  | [] => root
  | last :: directories => root.extend (directories.reverse ++ [last ++ ending])

/-- The name that a component of a key gives. -/
def name : Path.Component → Except KeyFault Bytes
  | .name bytes => if (Utf8.text? bytes).isSome then .ok bytes else .error .notText
  | _ => .error .notName

/-- The symbols that the names of a key hold. -/
def symbols (width : Nat) (names : List Bytes) : Except KeyFault Bytes :=
  match names.reverse with
  | [] => .error .noName
  | last :: directories =>
    if !ending.isSuffixOf last then .error .noExtension
    else
      let stem := last.take (last.length - ending.length)
      if directories.any fun d => d.length != width then .error .directoryWidth
      else if stem = [] ∨ width < stem.length then .error .finalWidth
      else .ok (directories.reverse.flatten ++ stem)

/-- The digest that a key stands for. -/
def digest (width : Nat) (p : Path) : Except KeyFault Bytes := do
  let names ← p.components.mapM name
  let written ← symbols width names
  (Base32.decode written).mapError .digest

/-- The signature whose object has the path `p` below the root of a store. -/
def signature (p : Path) (algorithm : Algorithm) (width : Nat) : Except Error Signature :=
  match digest width p with
  | .error fault => .error (.malformedKey p fault)
  | .ok digest => Signature.ofDigest algorithm digest

end ContentChunks.Key
