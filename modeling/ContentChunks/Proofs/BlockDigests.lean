/-
Block-wise digests of whole messages. A message is padded up to the end of a
block and cut into blocks, and these are mixed in one after the other. A state
that is fed the message in any pieces has mixed in the blocks that are full and
keeps the rest, so it tells the same digest.

Main statements:
- `exists_padding`: the padding is the shortest that ends a block.
- `Blocks.collects_feedAll`: what a state has mixed in and what it keeps.
- `Sha256.digest_feed`, `Sha512.digest_feed`: the digest told is that of the whole message.
-/
import ContentChunks.Digest.Sha256
import ContentChunks.Digest.Sha512
import ContentChunks.Proofs.Base32
import Mathlib.Data.List.Basic

namespace ContentChunks.Digest

open Base32 (rows rows_flatten length_flatten_of_full)

/-- A state that is fed items one by one sorts them into rows and what it collects: if it does so at each item, all
items are in the rows and in what it has collected at the end. -/
theorem exists_rows_of_foldl {σ α : Type} {feed : σ → α → σ} {s : σ}
    {Collects : List (List α) → List α → σ → Prop} (first : Collects [] [] s)
    (next : ∀ {rows last s}, Collects rows last s → ∀ a, ∃ rows' last', Collects rows' last' (feed s a) ∧
      rows'.flatten ++ last' = rows.flatten ++ last ++ [a]) (items : List α) :
    ∃ rows last, Collects rows last (items.foldl feed s) ∧ rows.flatten ++ last = items := by
  induction items using List.reverseRecOn with
  | nil => exact ⟨[], [], first, rfl⟩
  | append_singleton items a ih =>
    obtain ⟨rows, last, collects, same⟩ := ih
    obtain ⟨rows', last', after, sorted⟩ := next collects a
    rw [List.foldl_concat]
    exact ⟨rows', last', after, by rw [sorted, same]⟩

/-- The padding is a one bit, as few zeros as there can be, and the length at the end of a block. -/
theorem exists_padding {size count : Nat} (room : count < size) (length : Nat) :
    ∃ zeros < size, padding size count length = 0x80 :: List.replicate zeros 0 ++ bigEndian count (8 * length) ∧
      size ∣ length + (1 + zeros + count) := by
  have pos : 0 < size := by omega
  have rest : length % size < size := Nat.mod_lt _ pos
  have parts : size * (length / size) + length % size = length := Nat.div_add_mod ..
  refine ⟨_, Nat.mod_lt _ pos, rfl, ?_⟩
  generalize length % size = r at rest parts
  -- the zeros reach to the end of this block, or else to the end of the next one
  by_cases fits : r + 1 + count ≤ size
  · have zeros : (2 * size - 1 - count - r) % size = size - 1 - count - r := by
      rw [Nat.mod_eq_sub_mod (by omega), Nat.mod_eq_of_lt (by omega)]
      omega
    exact ⟨length / size + 1, by rw [zeros, Nat.mul_succ]; omega⟩
  · rw [Nat.mod_eq_of_lt (by omega)]
    exact ⟨length / size + 2, by rw [Nat.mul_add]; omega⟩

theorem dvd_length_padded {size count : Nat} (room : count < size) (message : Bytes) :
    size ∣ (message ++ padding size count message.length).length := by
  obtain ⟨zeros, -, same, whole⟩ := exists_padding room message.length
  have length : (padding size count message.length).length = 1 + zeros + count := by
    rw [same]
    simp
    omega
  rwa [List.length_append, length]

namespace Blocks

variable {σ : Type} {size : Nat} {mix : σ → Bytes → σ} {value : σ}

/-- What is known of a state that has mixed in full blocks and keeps less than another one. -/
structure Collects (size : Nat) (mix : σ → Bytes → σ) (value : σ) (full : List Bytes) (block : Bytes)
    (s : Blocks σ) : Prop where
  filled : ∀ row ∈ full, row.length = size
  mixed : s.value = full.foldl mix value
  kept : s.pending = block.reverse
  short : block.length < size
  counted : s.length = size * full.length + block.length

theorem Collects.feed {full : List Bytes} {block : Bytes} {s : Blocks σ} (h : Collects size mix value full block s)
    (b : UInt8) :
    ∃ full' block', Collects size mix value full' block' (feed size mix s b) ∧
      full'.flatten ++ block' = full.flatten ++ block ++ [b] := by
  have short := h.short
  have place : (s.length + 1) % size = (block.length + 1) % size := by
    rw [h.counted, Nat.add_assoc, Nat.mul_add_mod]
  have last : (b :: s.pending).reverse = block ++ [b] := by
    rw [h.kept, List.reverse_cons, List.reverse_reverse]
  unfold Blocks.feed
  rw [place, last]
  by_cases ends : block.length + 1 = size
  · rw [if_pos (by rw [ends, Nat.mod_self])]
    refine ⟨full ++ [block ++ [b]], [], ⟨?_, ?_, rfl, by rw [List.length_nil]; omega, ?_⟩, by simp⟩
    · refine List.forall_mem_append.2 ⟨h.filled, List.forall_mem_singleton.2 ?_⟩
      rw [List.length_append, List.length_singleton, ends]
    · rw [List.foldl_concat, ← h.mixed]
    · rw [List.length_append, List.length_singleton, Nat.mul_succ, h.counted, List.length_nil, ← ends]
      rfl
  · rw [if_neg (by rw [Nat.mod_eq_of_lt (by omega)]; omega)]
    refine ⟨full, block ++ [b], ⟨h.filled, h.mixed, by simp [h.kept], ?_, ?_⟩, by simp⟩
    · rw [List.length_append, List.length_singleton]
      omega
    · rw [List.length_append, List.length_singleton, h.counted]
      rfl

/-- **What a state has mixed in and what it keeps** is the message, in whatever pieces it was fed. -/
theorem collects_feedAll (mix : σ → Bytes → σ) (value : σ) (pos : 0 < size) (data : Bytes) :
    ∃ full block, Collects size mix value full block (feedAll size mix (start value) data) ∧
      full.flatten ++ block = data :=
  exists_rows_of_foldl ⟨by simp, rfl, rfl, pos, rfl⟩ Collects.feed data

theorem length_feedAll (s : Blocks σ) (data : Bytes) : (feedAll size mix s data).length = s.length + data.length := by
  induction data generalizing s with
  | nil => rfl
  | cons b rest ih =>
    have next : (feed size mix s b).length = s.length + 1 := by
      unfold feed
      split <;> rfl
    have after : feedAll size mix s (b :: rest) = feedAll size mix (feed size mix s b) rest := rfl
    rw [after, ih, next, List.length_cons]
    omega

theorem value_feedAll (pos : 0 < size) {data : Bytes} (whole : size ∣ data.length) :
    (feedAll size mix (start value) data).value = (rows size data).foldl mix value := by
  obtain ⟨full, block, collects, same⟩ := collects_feedAll mix value pos data
  have total : data.length = size * full.length + block.length := by
    rw [← same, List.length_append, length_flatten_of_full collects.filled]
  have noBlock : block = [] := by
    rw [total, Nat.dvd_add_right (Nat.dvd_mul_right ..)] at whole
    exact List.length_eq_zero_iff.1 (Nat.eq_zero_of_dvd_of_lt whole collects.short)
  rw [noBlock, List.append_nil] at same
  rw [collects.mixed, ← same, rows_flatten pos collects.filled]

/-- The value after a whole message, padded and cut into blocks. -/
def valueOf (size count : Nat) (mix : σ → Bytes → σ) (value : σ) (message : Bytes) : σ :=
  (rows size (message ++ padding size count message.length)).foldl mix value

theorem value_padded {count : Nat} (room : count < size) (message : Bytes) :
    let s := feedAll size mix (start value) message
    (feedAll size mix s (padding size count s.length)).value = valueOf size count mix value message := by
  intro s
  have length : s.length = message.length := (length_feedAll _ _).trans (Nat.zero_add _)
  rw [length, ← feedAll_append, valueOf, value_feedAll (by omega) (dvd_length_padded room message)]

end Blocks

/-- The digest of a whole message. -/
def Sha256.digestOf (message : Bytes) : Bytes := (Blocks.valueOf 64 8 mix initial message).bytes

theorem Sha256.digest_feed (message : Bytes) : digest (feed start message) = digestOf message :=
  congrArg Registers.bytes (Blocks.value_padded (by decide) message)

/-- The digest of a whole message. -/
def Sha512.digestOf (message : Bytes) : Bytes := (Blocks.valueOf 128 16 mix initial message).bytes

theorem Sha512.digest_feed (message : Bytes) : digest (feed start message) = digestOf message :=
  congrArg Registers.bytes (Blocks.value_padded (by decide) message)

end ContentChunks.Digest
