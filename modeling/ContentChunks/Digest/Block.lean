/-
Block-wise digests. A digest that works on blocks of a fixed size keeps the
bytes of the block it is still collecting; feeding bytes is one fold, so how
the input was divided leaves no trace.
-/
import ContentChunks.Bytes

namespace ContentChunks.Digest

/-- Input on its way into a block-wise digest. -/
structure Blocks (σ : Type) where
  /-- The value after the blocks that are complete. -/
  value : σ
  /-- The bytes of the block being collected, the latest first. -/
  pending : Bytes
  /-- How many bytes were fed altogether. -/
  length : Nat

namespace Blocks

variable {σ : Type}

def start (value : σ) : Blocks σ := ⟨value, [], 0⟩

/-- Feeds one byte; the byte that fills a block of `size` bytes has it mixed in. -/
def feed (size : Nat) (mix : σ → Bytes → σ) (s : Blocks σ) (b : UInt8) : Blocks σ :=
  if (s.length + 1) % size = 0 then ⟨mix s.value (b :: s.pending).reverse, [], s.length + 1⟩
  else ⟨s.value, b :: s.pending, s.length + 1⟩

def feedAll (size : Nat) (mix : σ → Bytes → σ) (s : Blocks σ) (data : Bytes) : Blocks σ :=
  data.foldl (feed size mix) s

theorem feedAll_append (size : Nat) (mix : σ → Bytes → σ) (s : Blocks σ) (x y : Bytes) :
    feedAll size mix s (x ++ y) = feedAll size mix (feedAll size mix s x) y := by
  simp [feedAll]

end Blocks

/-- A number in `count` bytes, the most significant first. -/
def bigEndian (count n : Nat) : Bytes :=
  (List.range count).reverse.map fun i => UInt8.ofNat (n >>> (8 * i))

@[simp] theorem length_bigEndian (count n : Nat) : (bigEndian count n).length = count := by
  simp [bigEndian]

/-- What follows a message of `length` bytes: a one bit, zeros up to the place
of the length, and the length in bits in `count` bytes at a block's end. -/
def padding (size count length : Nat) : Bytes :=
  0x80 :: List.replicate ((2 * size - 1 - count - length % size) % size) 0 ++ bigEndian count (8 * length)

end ContentChunks.Digest
