/-
Signatures: a digest together with the algorithm that made it. Equal payloads
have equal signatures, so a signature stands for the payload.
-/
import ContentChunks.Algorithm
import ContentChunks.Hex

namespace ContentChunks

/-- The digest of a payload under an algorithm. -/
structure Signature where
  algorithm : Algorithm
  digest : Bytes
deriving DecidableEq, Repr

namespace Signature

/-- Whether the digest has its algorithm's length. -/
def Sized (s : Signature) : Prop := s.digest.length = s.algorithm.digestLength

instance (s : Signature) : Decidable s.Sized := inferInstanceAs (Decidable (_ = _))

def hex (s : Signature) : String := Hex.encode s.digest

/-- The algorithm's name, a colon, and the digest in hexadecimal. -/
def text (s : Signature) : String := s.algorithm.name ++ ":" ++ s.hex

/-- Reads the hexadecimal digits of a digest of the algorithm's length. -/
def ofHex? (algorithm : Algorithm) (text : String) : Option Signature :=
  if text.toList.length = 2 * algorithm.digestLength then
    (Hex.bytes? text.toList).map fun digest => ⟨algorithm, digest⟩
  else none

/-- Signatures are ordered by algorithm, then by the bytes of the digest. -/
instance : Ord Signature where
  compare s t := (compare s.algorithm t.algorithm).then (compare s.digest t.digest)

end Signature

end ContentChunks
