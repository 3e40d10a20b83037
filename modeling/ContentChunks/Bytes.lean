/-
Byte strings. Assets, payloads, digests and file names are lists of bytes, so
that an offset into one is a plain list position.
-/
namespace ContentChunks

abbrev Bytes := List UInt8

namespace Bytes

/-- The bytes of a text in UTF-8. -/
def ofText (s : String) : Bytes := s.toList.flatMap String.utf8EncodeChar

/-- The bytes from offset `start` up to, not including, offset `stop`. -/
def slice (data : Bytes) (start stop : Nat) : Bytes := (data.drop start).take (stop - start)

@[simp] theorem slice_zero_length (data : Bytes) : slice data 0 data.length = data := by
  simp [slice]

theorem slice_append_slice (data : Bytes) {i j k : Nat} (hij : i ≤ j) (hjk : j ≤ k) :
    slice data i j ++ slice data j k = slice data i k := by
  have h : data.drop j = (data.drop i).drop (j - i) := by
    rw [List.drop_drop]; congr 1; omega
  have hk : k - i = (j - i) + (k - j) := by omega
  rw [slice, slice, slice, h, hk, List.take_add]

theorem length_slice (data : Bytes) {i j : Nat} (hj : j ≤ data.length) :
    (slice data i j).length = j - i := by
  simp [slice]; omega

end Bytes

end ContentChunks
