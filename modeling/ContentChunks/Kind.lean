/-
Text and binary. An asset is binary if one of its first bytes never occurs in
a text: a control character other than tab, line feed, vertical tab, form feed
and carriage return.
-/
import ContentChunks.Bytes

namespace ContentChunks

/-- How an asset is chunked: at blank runs, or kept whole. -/
inductive Kind where
  | text
  | binary
deriving DecidableEq, Repr

namespace Kind

/-- Whether a byte never occurs in a text. -/
def disallowed (b : UInt8) : Bool := b < 0x09 || (0x0E ≤ b && b ≤ 0x1F)

/-- The kind that some bytes show. -/
def shownBy (data : Bytes) : Kind := if data.any disallowed then binary else text

/-- The kind of an asset, judged by its first `sample` bytes, or by all. -/
def of (data : Bytes) (sample : Option Nat) : Kind :=
  shownBy (match sample with
    | none => data
    | some n => data.take n)

theorem shownBy_eq_binary_iff {data : Bytes} :
    shownBy data = binary ↔ ∃ b ∈ data, disallowed b = true := by
  simp [shownBy]

theorem shownBy_append (x y : Bytes) :
    shownBy (x ++ y) = if shownBy x = binary then binary else shownBy y := by
  unfold shownBy
  rw [List.any_append]
  by_cases h : x.any disallowed = true <;> simp [h]

end Kind

end ContentChunks
