/-
Ranges of an asset. A range of a binary asset has plain offsets; in a text
each end also tells its line and column, where they are known.
-/
import ContentChunks.Error
import ContentChunks.Order

namespace ContentChunks

/-- A place in a text: an offset, and the line and the column, counted from
zero, where they are known. -/
structure TextPosition where
  offset : Nat
  line : Option Nat
  column : Option Nat
deriving DecidableEq, Repr

namespace TextPosition

/-- Positions are ordered by offset, then line, then column. -/
instance : Ord TextPosition where
  compare p q :=
    (compare p.offset q.offset).then
      ((compare (unknownFirst p.line) (unknownFirst q.line)).then
        (compare (unknownFirst p.column) (unknownFirst q.column)))

end TextPosition

/-- A stretch of an asset, its end not included. -/
inductive Range where
  | bytes (start stop : Nat)
  | text (start stop : TextPosition)
deriving DecidableEq, Repr

namespace Range

/-- The offset of the first byte. -/
def start : Range → Nat
  | bytes a _ => a
  | text a _ => a.offset

/-- The offset after the last byte. -/
def stop : Range → Nat
  | bytes _ b => b
  | text _ b => b.offset

/-- How many bytes are covered; none if the end is before the start. -/
def length (r : Range) : Nat := r.stop - r.start

def isEmpty (r : Range) : Bool := r.length == 0

def isText : Range → Bool
  | bytes .. => false
  | text .. => true

/-- The range itself, if its end is not before its start. -/
def checked (r : Range) : Except Error Range :=
  if r.stop < r.start then .error (.invalidRange r.start r.stop) else .ok r

/-- The range for readers: the offsets, and the lines where both are known. -/
def display (r : Range) : String :=
  let offsets := toString r.start ++ ".." ++ toString r.stop
  match r with
  | text ⟨_, some first, _⟩ ⟨_, some last, _⟩ =>
    offsets ++ " (lines " ++ toString first ++ ".." ++ toString last ++ ")"
  | _ => offsets

end Range

end ContentChunks
