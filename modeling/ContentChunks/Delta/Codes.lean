/-
The codes of a text's words, and numbers for them. Codes are numbered in the
order in which they first occur, so equal codes have equal numbers and
sequences of numbers can be compared in place of sequences of codes.
-/
import ContentChunks.Phonetic
import ContentChunks.Utf8
import ContentChunks.Words

namespace ContentChunks

/-- The phonetic codes of the words of a payload, ill-formed pieces of which separate words. -/
def codesOf (payload : Bytes) : List String := (Words.ofText (Utf8.lossy payload)).map Phonetic.code

/-- The codes met so far; the number of a code is its place. -/
structure CodeTable where
  codes : List String
deriving DecidableEq, Repr

namespace CodeTable

def empty : CodeTable := ⟨[]⟩

/-- The number of a code; a new one takes the next number. Numbers are assumed to fit in 32 bits: of more
than `2 ^ 32` codes two would have one number. -/
def number (code : String) : StateM CodeTable Nat := fun table =>
  match table.codes.idxOf? code with
  | some n => (n, table)
  | none => (table.codes.length, ⟨table.codes ++ [code]⟩)

/-- The numbers of the codes of each payload in turn. -/
def numberAll (payloads : List Bytes) : StateM CodeTable (List (List Nat)) :=
  payloads.mapM fun payload => (codesOf payload).mapM number

end CodeTable

end ContentChunks
