/-
Base 32. Bytes are cut into groups of five bits, the first bit of a byte
first, and each group is a symbol from A to Z or 2 to 7; the last group is
filled up with zeros. Reading takes exactly what is written.
-/
import ContentChunks.Bytes

namespace ContentChunks.Base32

/-- Why a text is not base 32. -/
inductive Fault where
  /-- No byte string is written in so many symbols; the place is the last symbol's. -/
  | length (place : Nat)
  /-- A byte that is no symbol. -/
  | symbol (place : Nat)
  /-- The bits that fill up the last group are not all zero. -/
  | trailing (place : Nat)
deriving DecidableEq, Repr

def Fault.message : Fault → String
  | length place => "invalid length at " ++ toString place
  | symbol place => "invalid symbol at " ++ toString place
  | trailing place => "non-zero trailing bits at " ++ toString place

/-- The symbol of a value below 32. -/
def symbol (n : Nat) : UInt8 := UInt8.ofNat (if n < 26 then 0x41 + n else 0x32 + (n - 26))

def value? (b : UInt8) : Option Nat :=
  if 0x41 ≤ b ∧ b ≤ 0x5A then some (b.toNat - 0x41)
  else if 0x32 ≤ b ∧ b ≤ 0x37 then some (b.toNat - 0x32 + 26)
  else none

/-- The `count` low bits of a number, the highest first. -/
def bits (count n : Nat) : List Bool := (List.range count).reverse.map fun i => n.testBit i

/-- The number that a row of bits writes. -/
def number (bs : List Bool) : Nat := bs.foldl (fun n b => 2 * n + b.toNat) 0

/-- The rows of `size` items, the last one perhaps shorter; a size of zero counts as one. -/
def rows {α : Type} (size : Nat) : List α → List (List α)
  | [] => []
  | a :: rest => (a :: rest.take (size - 1)) :: rows size (rest.drop (size - 1))
termination_by items => items.length
decreasing_by simp only [List.length_cons, List.length_drop]; omega

def encode (bytes : Bytes) : Bytes :=
  (rows 5 (bytes.flatMap fun b => bits 8 b.toNat)).map fun group =>
    symbol (number (group ++ List.replicate (5 - group.length) false))

/-- The values of the symbols, or the place of the first byte that is none. -/
def values (place : Nat) : Bytes → Except Fault (List Nat)
  | [] => .ok []
  | b :: rest =>
    match value? b with
    | none => .error (.symbol place)
    | some v => (values (place + 1) rest).map (v :: ·)

/-- Reads a row of symbols: first their number is judged, then each symbol,
then the bits after the last whole byte. -/
def decode (symbols : Bytes) : Except Fault Bytes := do
  if symbols.length % 8 = 1 ∨ symbols.length % 8 = 3 ∨ symbols.length % 8 = 6 then
    throw (.length (symbols.length - 1))
  let vs ← values 0 symbols
  let all := vs.flatMap (bits 5)
  let whole := all.length / 8
  if (all.drop (8 * whole)).any id then throw (.trailing (symbols.length - 1))
  return (rows 8 (all.take (8 * whole))).map fun byte => UInt8.ofNat (number byte)

end ContentChunks.Base32
