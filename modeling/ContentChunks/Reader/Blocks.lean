/-
Reading in blocks: a reader is read block by block, up to a number of bytes or
to its end. Every block has at least one byte, so the bytes that are left bound
the number of reads.
-/
import ContentChunks.Kind
import ContentChunks.Reader

namespace ContentChunks.Reader

theorem position_lt_of_fill {r r' : Reader} {wanted : Nat} {b : UInt8} {bytes : Bytes}
    (h : r.fill wanted = (.ok (b :: bytes), r')) :
    r'.data.length - r'.position < r.data.length - r.position := by
  obtain ⟨h1, -, h3, h4, -⟩ := fill_ok h
  have := congrArg List.length h1
  simp at this
  rw [h4, h3]
  simp
  omega

/-- Folds over the blocks from the position on, of `block` bytes at most each,
until `left` bytes are read, if that is given, or the source ends. -/
def foldBlocks {σ : Type} (f : σ → Bytes → σ) (block : Nat) (left : Option Nat) (acc : σ)
    (r : Reader) : Except Fault σ × Reader :=
  if left = some 0 then (.ok acc, r)
  else
    match _h : r.fill (match left with | none => block | some n => min block n) with
    | (.error fault, r') => (.error fault, r')
    | (.ok [], r') => (.ok acc, r')
    | (.ok (b :: bytes), r') =>
      foldBlocks f block (left.map (· - (bytes.length + 1))) (f acc (b :: bytes)) r'
termination_by r.data.length - r.position
decreasing_by exact position_lt_of_fill _h

@[simp] theorem data_foldBlocks {σ : Type} (f : σ → Bytes → σ) (block : Nat) (left : Option Nat)
    (acc : σ) (r : Reader) : (r.foldBlocks f block left acc).2.data = r.data := by
  fun_induction foldBlocks f block left acc r with
  | case1 => rfl
  | case2 _ acc r _ _ _ h => exact (congrArg (·.2.data) h).symm.trans (data_fill ..)
  | case3 _ acc r _ _ h => exact (congrArg (·.2.data) h).symm.trans (data_fill ..)
  | case4 _ acc r _ _ _ _ h ih => exact ih.trans ((congrArg (·.2.data) h).symm.trans (data_fill ..))

/-- The kind of what lies ahead, judged by the next `left` bytes or by all.
Reading stops after the first block with a disallowed byte. -/
def kindAhead (block : Nat) (left : Option Nat) (r : Reader) : Except Fault Kind × Reader :=
  if left = some 0 then (.ok .text, r)
  else
    match _h : r.fill (match left with | none => block | some n => min block n) with
    | (.error fault, r') => (.error fault, r')
    | (.ok [], r') => (.ok .text, r')
    | (.ok (b :: bytes), r') =>
      if Kind.shownBy (b :: bytes) = .binary then (.ok .binary, r')
      else kindAhead block (left.map (· - (bytes.length + 1))) r'
termination_by r.data.length - r.position
decreasing_by exact position_lt_of_fill _h

@[simp] theorem data_kindAhead (block : Nat) (left : Option Nat) (r : Reader) :
    (r.kindAhead block left).2.data = r.data := by
  fun_induction kindAhead block left r with
  | case1 => rfl
  | case2 _ r _ _ _ h => exact (congrArg (·.2.data) h).symm.trans (data_fill ..)
  | case3 _ r _ _ h => exact (congrArg (·.2.data) h).symm.trans (data_fill ..)
  | case4 _ r _ _ _ _ h _ => exact (congrArg (·.2.data) h).symm.trans (data_fill ..)
  | case5 _ r _ _ _ _ h _ ih => exact ih.trans ((congrArg (·.2.data) h).symm.trans (data_fill ..))

/-- The kind of a source, read in blocks of `blockSize` bytes; a size of zero
counts as one. There is assumed to be room for a block. -/
def kind (blockSize : Nat) (sample : Option Nat) (r : Reader) : Except Fault Kind × Reader :=
  r.kindAhead (max 1 blockSize) sample

@[simp] theorem data_kind (blockSize : Nat) (sample : Option Nat) (r : Reader) :
    (r.kind blockSize sample).2.data = r.data := data_kindAhead ..

end ContentChunks.Reader
