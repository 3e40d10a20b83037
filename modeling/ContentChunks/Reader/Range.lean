/-
Ranges of a reader: the signature of a range, computed block by block, and the
bytes of a chunk. Both move to the range's start and refuse a source that ends
inside the range. A block is as large as it has to be; the bytes of a chunk are
put in a buffer that cannot be.
-/
import ContentChunks.Chunk
import ContentChunks.Hasher
import ContentChunks.Reader.Blocks

namespace ContentChunks

namespace Reader

/-- The signature of the bytes from `start`, or the beginning, to `stop`, or
the end of the source. There is assumed to be room for a block. -/
def signature (r : Reader) (start stop : Option Nat) (algorithm : Algorithm) (blockSize : Nat) :
    Except Error Signature × Reader :=
  let first := start.getD 0
  if stop.any (· < first) then (.error (.invalidRange first (stop.getD 0)), r)
  else match r.moveTo first with
    | (.error fault, r) => (.error (.io fault), r)
    | (.ok (), r) =>
      let feed := fun (h, count) bytes => (Hasher.feed h bytes, count + bytes.length)
      match r.foldBlocks feed (max 1 blockSize) (stop.map (· - first)) (Hasher.start algorithm, 0) with
      | (.error fault, r) => (.error (.io fault), r)
      | (.ok (h, count), r) =>
        match stop with
        | some last =>
          if count < last - first then (.error (.truncated first last count), r)
          else (.ok h.signature, r)
        | none => (.ok h.signature, r)

/-- The block size where nothing is said. -/
def defaultBlock : Nat := 65536

@[simp] theorem data_signature (r : Reader) (start stop : Option Nat) (algorithm : Algorithm)
    (blockSize : Nat) : (r.signature start stop algorithm blockSize).2.data = r.data := by
  unfold signature
  dsimp only
  split
  · rfl
  · split
    · rename_i h
      exact (congrArg (·.2.data) h).symm.trans (data_moveTo ..)
    · rename_i r1 h1
      have e1 : r1.data = r.data := (congrArg (·.2.data) h1).symm.trans (data_moveTo ..)
      split
      · rename_i h2
        exact ((congrArg (·.2.data) h2).symm.trans (data_foldBlocks ..)).trans e1
      · rename_i h2
        have e2 := ((congrArg (·.2.data) h2).symm.trans (data_foldBlocks ..)).trans e1
        split
        · split <;> exact e2
        · exact e2

end Reader

/-- The most bytes that a buffer may be made for. -/
def capacityMax : Nat := 0x7FFFFFFFFFFFFFFF

namespace Chunk

/-- Whether no buffer can be made for the bytes of a chunk, as they would be too many. Nothing in memory and
no file is longer than a buffer may be, so that a source never has the whole of such a range: of byte strings,
which here have no bound, the second condition says this. -/
def Oversized (c : Chunk) (data : Bytes) : Prop := capacityMax < c.length ∧ data.length < c.range.stop

instance (c : Chunk) (data : Bytes) : Decidable (c.Oversized data) := inferInstanceAs (Decidable (_ ∧ _))

/-- The bytes of a chunk, read from its asset. Before they are read a buffer is made for all of them. -/
def readFrom (c : Chunk) (r : Reader) : Except Error Bytes × Reader :=
  match r.moveTo c.range.start with
  | (.error fault, r) => (.error (.io fault), r)
  | (.ok (), r) =>
    if c.Oversized r.data then (.error (.panic "capacity overflow"), r)
    else match r.foldBlocks (fun pieces bytes => bytes :: pieces) c.length (some c.length) [] with
      | (.error fault, r) => (.error (.io fault), r)
      | (.ok pieces, r) =>
        let bytes := pieces.reverse.flatten
        if bytes.length < c.length then
          (.error (.truncated c.range.start c.range.stop bytes.length), r)
        else (.ok bytes, r)

end Chunk

end ContentChunks
