/-
The written forms of chunks and of what they consist of.
-/
import ContentChunks.Chunk
import ContentChunks.Form

namespace ContentChunks

open Json Form

/-- The first number that an offset cannot be. -/
def offsetLimit : Nat := 0x10000000000000000

/-- A place in a binary asset. -/
structure BytePosition where
  offset : Nat
deriving DecidableEq, Repr

/-- An algorithm is its name. -/
instance : Form Algorithm where
  toJson a := ofText a.name
  ofJson? j := match variant? j with
    | some (name, none) => Algorithm.named? name
    | some (name, some .null) => Algorithm.named? name
    | _ => none

instance : Form BytePosition where
  toJson p := ofMembers [("offset", .number p.offset)]
  ofJson? j := match record? ["offset"] j with
    | some [offset] => do return ⟨← offset.bind (natBelow? offsetLimit)⟩
    | _ => none

/-- What is not known of a position is null. -/
instance : Form TextPosition where
  toJson p := ofMembers [("offset", .number p.offset), ("line", ofOption .number p.line),
    ("column", ofOption .number p.column)]
  ofJson? j := match record? ["offset", "line", "column"] j with
    | some [offset, line, column] => do
      return ⟨← offset.bind (natBelow? offsetLimit), ← optional? (natBelow? offsetLimit) line,
        ← optional? (natBelow? offsetLimit) column⟩
    | _ => none

/-- A range is a variant for each kind of asset, with its two ends. -/
instance : Form Range where
  toJson
    | .bytes start stop => ofVariant "Bytes"
        (ofMembers [("start", toJson (BytePosition.mk start)), ("end", toJson (BytePosition.mk stop))])
    | .text start stop => ofVariant "Text" (ofMembers [("start", toJson start), ("end", toJson stop)])
  ofJson? j := match variant? j with
    | some ("Bytes", some ends) => match record? ["start", "end"] ends with
      | some [start, stop] => do
        let first : BytePosition ← field? start
        let last : BytePosition ← field? stop
        return .bytes first.offset last.offset
      | _ => none
    | some ("Text", some ends) => match record? ["start", "end"] ends with
      | some [start, stop] => do return .text (← field? start) (← field? stop)
      | _ => none
    | _ => none

instance : Form Location where
  toJson l := ofMembers [("segments", ofList ofText l.segments)]
  ofJson? j := match record? ["segments"] j with
    | some [segments] => do return ⟨← segments.bind (listOf? textValue?)⟩
    | _ => none

instance : Form Signature where
  toJson s := ofMembers [("algorithm", toJson s.algorithm), ("digest", ofBytes s.digest)]
  ofJson? j := match record? ["algorithm", "digest"] j with
    | some [algorithm, digest] => do return ⟨← field? algorithm, ← digest.bind bytes?⟩
    | _ => none

instance : Form Chunk where
  toJson c := ofMembers [("location", toJson c.location), ("range", toJson c.range),
    ("signature", toJson c.signature)]
  ofJson? j := match record? ["location", "range", "signature"] j with
    | some [location, range, signature] => do
      return ⟨← field? location, ← field? range, ← field? signature⟩
    | _ => none

/-- A missing neighbour is null. -/
instance : Form Chunk.Context where
  toJson c := ofMembers [("previous", ofOption toJson c.previous), ("next", ofOption toJson c.next)]
  ofJson? j := match record? ["previous", "next"] j with
    | some [previous, next] => do return ⟨← optional? ofJson? previous, ← optional? ofJson? next⟩
    | _ => none

end ContentChunks
