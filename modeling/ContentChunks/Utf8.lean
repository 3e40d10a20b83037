/-
UTF-8. A byte string is read as a row of scalar values, with one failure for
each maximal ill-formed piece: a piece ends before the first byte that cannot
continue a character, and that byte is read afresh.
-/
import ContentChunks.Bytes

namespace ContentChunks.Utf8

/-- A character whose last bytes have not been read. -/
structure Unfinished where
  /-- The bits read so far. -/
  value : Nat
  /-- How many bytes are still to come. -/
  missing : Nat
  /-- The least byte that may come next. -/
  low : UInt8
  /-- The greatest byte that may come next. -/
  high : UInt8
deriving DecidableEq, Repr

/-- What reading a byte settles, and what it leaves open. -/
structure Progress where
  /-- The characters and failures that the byte settles. -/
  settled : List (Option Char)
  /-- The character that the byte leaves unfinished. -/
  unfinished : Option Unfinished
deriving DecidableEq, Repr

/-- Reads a byte that starts a character. -/
def first (b : UInt8) : Progress :=
  if b < 0x80 then ⟨[some (Char.ofNat b.toNat)], none⟩
  else if b < 0xC2 then ⟨[none], none⟩
  else if b < 0xE0 then ⟨[], some ⟨b.toNat % 32, 1, 0x80, 0xBF⟩⟩
  else if b = 0xE0 then ⟨[], some ⟨0, 2, 0xA0, 0xBF⟩⟩
  else if b = 0xED then ⟨[], some ⟨13, 2, 0x80, 0x9F⟩⟩
  else if b < 0xF0 then ⟨[], some ⟨b.toNat % 16, 2, 0x80, 0xBF⟩⟩
  else if b = 0xF0 then ⟨[], some ⟨0, 3, 0x90, 0xBF⟩⟩
  else if b < 0xF4 then ⟨[], some ⟨b.toNat % 8, 3, 0x80, 0xBF⟩⟩
  else if b = 0xF4 then ⟨[], some ⟨4, 3, 0x80, 0x8F⟩⟩
  else ⟨[none], none⟩

/-- Reads a byte after the unfinished character `u`, if there is one. -/
def next : Option Unfinished → UInt8 → Progress
  | none, b => first b
  | some u, b =>
    if u.low ≤ b ∧ b ≤ u.high then
      let value := 64 * u.value + b.toNat % 64
      if u.missing ≤ 1 then ⟨[some (Char.ofNat value)], none⟩
      else ⟨[], some ⟨value, u.missing - 1, 0x80, 0xBF⟩⟩
    else
      let p := first b
      ⟨none :: p.settled, p.unfinished⟩

/-- The scalar values of the bytes after `u`, `none` for an ill-formed piece. -/
def scalarsFrom : Option Unfinished → Bytes → List (Option Char)
  | none, [] => []
  | some _, [] => [none]
  | u, b :: rest =>
    let p := next u b
    p.settled ++ scalarsFrom p.unfinished rest

/-- Reads on from what is settled already, the last of it first. -/
def scan (settled : List (Option Char)) : Option Unfinished → Bytes → List (Option Char)
  | none, [] => settled.reverse
  | some _, [] => (none :: settled).reverse
  | u, b :: rest =>
    let p := next u b
    scan (p.settled.reverse ++ settled) p.unfinished rest

/-- The scalar values of a byte string, `none` for an ill-formed piece. -/
def scalars (bytes : Bytes) : List (Option Char) := scan [] none bytes

theorem scan_eq (settled : List (Option Char)) (u : Option Unfinished) (bytes : Bytes) :
    scan settled u bytes = settled.reverse ++ scalarsFrom u bytes := by
  induction bytes generalizing settled u with
  | nil => cases u <;> simp [scan, scalarsFrom]
  | cons b rest ih => cases u <;> simp [scan, scalarsFrom, ih]

/-- Reading in one pass gives the scalar values in order. -/
theorem scalars_eq (bytes : Bytes) : scalars bytes = scalarsFrom none bytes := by
  simp [scalars, scan_eq]

/-- Reads a byte string, a replacement character for each ill-formed piece. -/
def lossy (bytes : Bytes) : String :=
  String.ofList ((scalars bytes).map fun c => c.getD '\uFFFD')

/-- Reads a byte string that is well-formed throughout. -/
def text? (bytes : Bytes) : Option String :=
  ((scalars bytes).mapM id).map String.ofList

end ContentChunks.Utf8
