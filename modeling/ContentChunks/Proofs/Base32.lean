/-
Base 32 is read back as it was written.

Main statements:
- `rows_spec`: the rows of a list are full but for the last, which is not empty.
- `decode_encode`: what is read from the symbols of a byte string is the byte string.
- `decode_eq_ok_iff`: and nothing but those symbols is read as it.
-/
import ContentChunks.Base32
import Mathlib.Algebra.Ring.Nat
import Mathlib.Data.List.Induction

namespace ContentChunks.Base32

/-! ## Bits and numbers -/

@[simp] theorem length_bits (count n : Nat) : (bits count n).length = count := by
  simp [bits]

theorem bits_succ (count n : Nat) : bits (count + 1) n = bits count (n / 2) ++ [n.testBit 0] := by
  simp [bits, List.range_succ_eq_map, List.map_map, Function.comp_def, Nat.testBit_add_one]

theorem number_concat (bs : List Bool) (b : Bool) : number (bs ++ [b]) = 2 * number bs + b.toNat := by
  simp [number]

theorem number_lt (bs : List Bool) : number bs < 2 ^ bs.length := by
  induction bs using List.reverseRecOn with
  | nil => simp [number]
  | append_singleton bs b ih =>
    have hb : b.toNat < 2 := Bool.toNat_lt b
    rw [number_concat, List.length_append, List.length_singleton, Nat.pow_succ]
    omega

theorem number_bits (count n : Nat) (h : n < 2 ^ count) : number (bits count n) = n := by
  induction count generalizing n with
  | zero =>
    have : n = 0 := by simpa using h
    simp [bits, number, this]
  | succ count ih =>
    have half : n / 2 < 2 ^ count := by rw [Nat.pow_succ] at h; omega
    rw [bits_succ, number_concat, ih _ half, Nat.toNat_testBit]
    simp
    omega

theorem bits_number (bs : List Bool) : bits bs.length (number bs) = bs := by
  induction bs using List.reverseRecOn with
  | nil => simp [bits]
  | append_singleton bs b ih =>
    have hb : b.toNat < 2 := Bool.toNat_lt b
    have half : (2 * number bs + b.toNat) / 2 = number bs := by omega
    have low : (2 * number bs + b.toNat).testBit 0 = b := by
      cases b <;> simp [Nat.testBit_zero]
    rw [number_concat, List.length_append, List.length_singleton, bits_succ, half, low, ih]

/-! ## Rows -/

variable {α : Type}

theorem flatten_rows (size : Nat) (items : List α) : (rows size items).flatten = items := by
  fun_induction rows size items with
  | case1 => rfl
  | case2 a rest ih => simp [ih]

theorem rows_append {size : Nat} {row : List α} (pos : 0 < size) (full : row.length = size) (rest : List α) :
    rows size (row ++ rest) = row :: rows size rest := by
  cases row with
  | nil => simp at full; omega
  | cons a row =>
    have h : row.length = size - 1 := by simp at full; omega
    rw [List.cons_append, rows, List.take_left' h, List.drop_left' h]

theorem rows_flatten {size : Nat} {all : List (List α)} (pos : 0 < size)
    (full : ∀ row ∈ all, row.length = size) : rows size all.flatten = all := by
  induction all with
  | nil => simp [rows]
  | cons row all ih =>
    have head : row.length = size := full row (by simp)
    rw [List.flatten_cons, rows_append pos head, ih fun r hr => full r (by simp [hr])]

theorem length_flatten_of_full {size : Nat} {all : List (List α)} (full : ∀ row ∈ all, row.length = size) :
    all.flatten.length = size * all.length := by
  rw [List.length_flatten, List.map_congr_left full, List.map_const', List.sum_replicate_nat, Nat.mul_comm]

/-- The rows of a list are full but for the last, which is not empty. -/
theorem rows_spec {size : Nat} (pos : 0 < size) {items : List α} (given : items ≠ []) :
    ∃ full last, rows size items = full ++ [last] ∧ (∀ row ∈ full, row.length = size) ∧
      last ≠ [] ∧ last.length ≤ size := by
  fun_induction rows size items with
  | case1 => exact absurd rfl given
  | case2 a rest ih =>
    by_cases h : rest.drop (size - 1) = []
    · refine ⟨[], a :: rest.take (size - 1), ?_, by simp, by simp, ?_⟩
      · rw [h]
        simp [rows]
      · rw [List.length_cons, List.length_take]
        omega
    · obtain ⟨full, last, same, width, filled, short⟩ := ih h
      refine ⟨(a :: rest.take (size - 1)) :: full, last, by rw [same]; rfl, ?_, filled, short⟩
      intro row hrow
      rcases List.mem_cons.1 hrow with rfl | hrow
      · have : 0 < (rest.drop (size - 1)).length := List.length_pos_iff.2 h
        rw [List.length_drop] at this
        rw [List.length_cons, List.length_take]
        omega
      · exact width row hrow

theorem rows_concat {size : Nat} {full : List (List α)} {last : List α} (width : ∀ row ∈ full, row.length = size)
    (filled : last ≠ []) (short : last.length ≤ size) : rows size (full.flatten ++ last) = full ++ [last] := by
  have pos : 0 < last.length := List.length_pos_iff.2 filled
  induction full with
  | nil =>
    obtain ⟨a, rest, rfl⟩ := List.exists_cons_of_ne_nil filled
    rw [List.length_cons] at short
    rw [List.flatten_nil, List.nil_append, List.nil_append, rows, List.take_of_length_le (by omega),
      List.drop_of_length_le (by omega), rows]
  | cons row full ih =>
    rw [List.flatten_cons, List.append_assoc, rows_append (by omega) (width row (by simp)),
      ih fun r hr => width r (by simp [hr]), List.cons_append]

theorem length_row {size count : Nat} {items : List α} (pos : 0 < size) (whole : items.length = size * count) :
    ∀ row ∈ rows size items, row.length = size := by
  induction count generalizing items with
  | zero => simp [List.length_eq_zero_iff.1 whole, rows]
  | succ count ih =>
    have full : (items.take size).length = size := by
      rw [List.length_take, whole, Nat.mul_succ]
      omega
    have rest : (items.drop size).length = size * count := by
      rw [List.length_drop, whole, Nat.mul_succ]
      omega
    have split := rows_append pos full (items.drop size)
    rw [List.take_append_drop] at split
    intro row hrow
    rw [split] at hrow
    cases List.mem_cons.1 hrow with
    | inl first => rw [first, full]
    | inr later => exact ih rest row later

theorem length_row_le {size : Nat} (pos : 0 < size) {items row : List α} (h : row ∈ rows size items) :
    row.length ≤ size := by
  have given : items ≠ [] := by
    intro empty
    simp [empty, rows] at h
  obtain ⟨full, last, same, width, -, short⟩ := rows_spec pos given
  rw [same, List.mem_append, List.mem_singleton] at h
  rcases h with h | rfl
  · exact Nat.le_of_eq (width row h)
  · exact short

/-! ## Symbols -/

theorem value?_symbol {n : Nat} (h : n < 32) : value? (symbol n) = some n := by
  have all : ∀ n : Fin 32, value? (symbol n) = some n.val := by decide
  exact all ⟨n, h⟩

theorem values_map_symbol {ns : List Nat} (h : ∀ n ∈ ns, n < 32) (place : Nat) :
    values place (ns.map symbol) = .ok ns := by
  induction ns generalizing place with
  | nil => rfl
  | cons n ns ih =>
    have rest := ih (fun m hm => h m (by simp [hm])) (place + 1)
    rw [List.map_cons, values, value?_symbol (h n (by simp)), rest]
    rfl

theorem symbol_of_value? {b : UInt8} {n : Nat} (h : value? b = some n) : symbol n = b ∧ n < 32 := by
  have all : ∀ i : Fin 256, (value? (UInt8.ofNat i)).all (fun n => symbol n = UInt8.ofNat i ∧ n < 32) = true := by
    decide +kernel
  have one := all ⟨b.toNat, b.toNat_lt⟩
  rw [UInt8.ofNat_toNat, h] at one
  simpa using one

theorem values_eq_ok {symbols : Bytes} {place : Nat} {ns : List Nat} (h : values place symbols = .ok ns) :
    symbols = ns.map symbol ∧ ∀ n ∈ ns, n < 32 := by
  induction symbols generalizing place ns with
  | nil =>
    obtain rfl := Except.ok.inj h
    simp
  | cons b rest ih =>
    rw [values] at h
    cases hb : value? b with
    | none => simp [hb] at h
    | some n =>
      cases hr : values (place + 1) rest with
      | error fault => simp [hb, hr, Except.map] at h
      | ok more =>
        obtain rfl : n :: more = ns := by simpa [hb, hr, Except.map] using h
        obtain ⟨same, small⟩ := ih hr
        obtain ⟨first, least⟩ := symbol_of_value? hb
        refine ⟨by rw [same, List.map_cons, first], ?_⟩
        simpa using ⟨least, small⟩

/-- The groups of five bits that are written, the last one filled up. -/
def groups (bytes : Bytes) : List (List Bool) :=
  (rows 5 (bytes.flatMap fun b => bits 8 b.toNat)).map fun group =>
    group ++ List.replicate (5 - group.length) false

theorem encode_eq (bytes : Bytes) : encode bytes = ((groups bytes).map number).map symbol := by
  simp [encode, groups, Function.comp_def]

theorem length_group {bytes : Bytes} {group : List Bool} (h : group ∈ groups bytes) : group.length = 5 := by
  obtain ⟨row, hrow, rfl⟩ := List.mem_map.1 h
  have : row.length ≤ 5 := length_row_le (by decide) hrow
  rw [List.length_append, List.length_replicate]
  omega

theorem number_group_lt {bytes : Bytes} : ∀ n ∈ (groups bytes).map number, n < 32 := by
  intro n hn
  obtain ⟨group, hgroup, rfl⟩ := List.mem_map.1 hn
  have := number_lt group
  rwa [length_group hgroup] at this

/-- Fewer than five zeros fill up the last group. -/
theorem flatten_groups (bytes : Bytes) :
    ∃ k < 5, (groups bytes).flatten = (bytes.flatMap fun b => bits 8 b.toNat) ++ List.replicate k false := by
  have same := flatten_rows 5 (bytes.flatMap fun b => bits 8 b.toNat)
  by_cases h : (bytes.flatMap fun b => bits 8 b.toNat) = []
  · exact ⟨0, by decide, by simp [groups, h, rows]⟩
  · obtain ⟨full, last, split, width, filled, short⟩ := rows_spec (by decide : 0 < 5) h
    have pos : 0 < last.length := List.length_pos_iff.2 filled
    have whole : (full.map fun g => g ++ List.replicate (5 - g.length) false) = full := by
      conv => rhs; rw [← List.map_id full]
      refine List.map_congr_left fun g hg => ?_
      rw [width g hg]
      simp
    refine ⟨5 - last.length, by omega, ?_⟩
    rw [groups, split, List.map_append, whole]
    rw [split] at same
    rw [← same]
    simp

theorem length_bits_of (bytes : Bytes) : (bytes.flatMap fun b => bits 8 b.toNat).length = 8 * bytes.length := by
  induction bytes with
  | nil => rfl
  | cons b bytes ih =>
    rw [List.flatMap_cons, List.length_append, ih, length_bits, List.length_cons]
    omega

theorem length_flatten_groups (bytes : Bytes) : (groups bytes).flatten.length = 5 * (groups bytes).length :=
  length_flatten_of_full fun _ hg => length_group hg

@[simp] theorem length_encode (bytes : Bytes) : (encode bytes).length = (8 * bytes.length + 4) / 5 := by
  obtain ⟨k, hk, same⟩ := flatten_groups bytes
  have total := length_flatten_groups bytes
  rw [same, List.length_append, length_bits_of, List.length_replicate] at total
  rw [encode_eq, List.length_map, List.length_map]
  omega

theorem encode_ne_nil {bytes : Bytes} (h : bytes ≠ []) : encode bytes ≠ [] := by
  have : 0 < bytes.length := List.length_pos_iff.2 h
  have := length_encode bytes
  intro empty
  rw [empty, List.length_nil] at this
  omega

theorem exists_of_mem_encode {bytes : Bytes} {b : UInt8} (h : b ∈ encode bytes) : ∃ n < 32, b = symbol n := by
  rw [encode_eq] at h
  obtain ⟨n, hn, rfl⟩ := List.mem_map.1 h
  exact ⟨n, number_group_lt n hn, rfl⟩

theorem flatMap_groups (bytes : Bytes) :
    ((groups bytes).map number).flatMap (bits 5) = (groups bytes).flatten := by
  have back : ((groups bytes).map number).map (bits 5) = groups bytes := by
    rw [List.map_map]
    conv => rhs; rw [← List.map_id (groups bytes)]
    refine List.map_congr_left fun g hg => ?_
    have := bits_number g
    rwa [length_group hg] at this
  rw [List.flatMap_def, back]

theorem bytes_of_bits (bytes : Bytes) :
    (rows 8 (bytes.flatMap fun b => bits 8 b.toNat)).map (fun byte => UInt8.ofNat (number byte)) = bytes := by
  have full : ∀ row ∈ bytes.map (fun b => bits 8 b.toNat), row.length = 8 := by
    intro row hrow
    obtain ⟨b, -, rfl⟩ := List.mem_map.1 hrow
    exact length_bits 8 b.toNat
  rw [List.flatMap_def, rows_flatten (by decide) full, List.map_map]
  conv => rhs; rw [← List.map_id bytes]
  refine List.map_congr_left fun b _ => ?_
  have small : b.toNat < 2 ^ 8 := b.toNat_lt
  rw [Function.comp_apply, number_bits 8 _ small, UInt8.ofNat_toNat, id]

/-- **What is read from the symbols of a byte string is the byte string.** -/
theorem decode_encode (bytes : Bytes) : decode (encode bytes) = .ok bytes := by
  obtain ⟨k, hk, same⟩ := flatten_groups bytes
  have total := length_flatten_groups bytes
  have size : (groups bytes).flatten.length = 8 * bytes.length + k := by
    rw [same, List.length_append, length_bits_of, List.length_replicate]
  have length : (encode bytes).length = (groups bytes).length := by
    rw [encode_eq, List.length_map, List.length_map]
  have fits :
      ¬((encode bytes).length % 8 = 1 ∨ (encode bytes).length % 8 = 3 ∨ (encode bytes).length % 8 = 6) := by
    omega
  have read : values 0 (encode bytes) = .ok ((groups bytes).map number) := by
    rw [encode_eq, values_map_symbol number_group_lt]
  have whole : 8 * ((groups bytes).flatten.length / 8) = (bytes.flatMap fun b => bits 8 b.toNat).length := by
    rw [size, length_bits_of]
    omega
  have front : (groups bytes).flatten.take (8 * ((groups bytes).flatten.length / 8)) =
      bytes.flatMap fun b => bits 8 b.toNat := by
    rw [whole, same, List.take_left]
  have rest : (groups bytes).flatten.drop (8 * ((groups bytes).flatten.length / 8)) = List.replicate k false := by
    rw [whole, same, List.drop_left]
  have zeros : (List.replicate k false).any id = false := by simp
  unfold decode
  rw [if_neg fits]
  simp only [read, bind, Except.bind, pure, Except.pure, flatMap_groups, rest, zeros, front, bytes_of_bits]
  rfl

theorem bits_of_bytes {bs : List Bool} {count : Nat} (whole : bs.length = 8 * count) :
    ((rows 8 bs).map fun byte => UInt8.ofNat (number byte)).flatMap (fun b => bits 8 b.toNat) = bs := by
  have full := length_row (by decide) whole
  have same : (rows 8 bs).map (fun byte => bits 8 (UInt8.ofNat (number byte)).toNat) = rows 8 bs := by
    conv => rhs; rw [← List.map_id (rows 8 bs)]
    refine List.map_congr_left fun row hrow => ?_
    have small := number_lt row
    have back := bits_number row
    rw [full row hrow] at small back
    rw [UInt8.toNat_ofNat_of_lt' small, back, id]
  rw [List.flatMap_map, List.flatMap_def, same, flatten_rows]

theorem groups_eq (bytes : Bytes) {all : List (List Bool)} {k : Nat} (five : ∀ row ∈ all, row.length = 5)
    (few : k < 5) (h : all.flatten = (bytes.flatMap fun b => bits 8 b.toNat) ++ List.replicate k false) :
    groups bytes = all := by
  obtain ⟨j, less, same⟩ := flatten_groups bytes
  have total := length_flatten_groups bytes
  have other := length_flatten_of_full five
  rw [same, List.length_append, List.length_replicate] at total
  rw [h, List.length_append, List.length_replicate] at other
  -- both fill up the same number of bits to a multiple of five
  obtain rfl : j = k := by omega
  have flat : (groups bytes).flatten = all.flatten := same.trans h.symm
  rw [← rows_flatten (by decide) fun row hrow => length_group hrow, flat, rows_flatten (by decide) five]

theorem length_mod_lt {count : Nat} (h : ¬(count % 8 = 1 ∨ count % 8 = 3 ∨ count % 8 = 6)) : 5 * count % 8 < 5 := by
  have all : ∀ r < 8, ¬(r = 1 ∨ r = 3 ∨ r = 6) → 5 * r % 8 < 5 := by decide
  have one := all (count % 8) (Nat.mod_lt _ (by decide)) h
  rwa [Nat.mul_mod, Nat.mod_mod, ← Nat.mul_mod] at one

/-- What is read are the whole bytes of the symbols' bits, if their number is one
that is written and all bits after the last byte are zeros. -/
theorem decode_spec {symbols bytes : Bytes} (h : decode symbols = .ok bytes) :
    ∃ ns whole k, values 0 symbols = .ok ns ∧ whole.length % 8 = 0 ∧ k < 5 ∧
      ns.flatMap (bits 5) = whole ++ List.replicate k false ∧
      bytes = (rows 8 whole).map fun byte => UInt8.ofNat (number byte) := by
  unfold decode at h
  by_cases odd : symbols.length % 8 = 1 ∨ symbols.length % 8 = 3 ∨ symbols.length % 8 = 6
  · rw [if_pos odd] at h
    cases h
  rw [if_neg odd] at h
  cases read : values 0 symbols with
  | error fault =>
    rw [read] at h
    cases h
  | ok ns =>
    obtain ⟨rfl, -⟩ := values_eq_ok read
    have length : (ns.flatMap (bits 5)).length = 5 * ns.length := by
      simp [List.length_flatMap, List.map_const', Nat.mul_comm]
    simp only [read, bind, Except.bind, pure, Except.pure] at h
    generalize hall : ns.flatMap (bits 5) = all at h length
    by_cases set : (all.drop (8 * (all.length / 8))).any id = true
    · rw [if_pos set] at h
      cases h
    rw [if_neg set] at h
    obtain rfl := Except.ok.inj h
    have few := length_mod_lt odd
    rw [List.length_map, ← length] at few
    refine ⟨ns, all.take (8 * (all.length / 8)), all.length - 8 * (all.length / 8), rfl, ?_, by omega, ?_, rfl⟩
    · rw [List.length_take]
      omega
    · have zeros : all.drop (8 * (all.length / 8)) = List.replicate (all.length - 8 * (all.length / 8)) false := by
        rw [List.eq_replicate_iff, List.length_drop]
        refine ⟨rfl, fun b hb => ?_⟩
        cases b with
        | false => rfl
        | true => exact absurd (List.any_eq_true.2 ⟨true, hb, rfl⟩) set
      rw [hall, ← zeros, List.take_append_drop]

/-- **Only what is written is read.** -/
theorem encode_of_decode {symbols bytes : Bytes} (h : decode symbols = .ok bytes) : encode bytes = symbols := by
  obtain ⟨ns, whole, k, read, aligned, few, all, rfl⟩ := decode_spec h
  obtain ⟨rfl, small⟩ := values_eq_ok read
  have five : ∀ row ∈ ns.map (bits 5), row.length = 5 := by
    intro row hrow
    obtain ⟨n, -, rfl⟩ := List.mem_map.1 hrow
    exact length_bits 5 n
  have count : whole.length = 8 * (whole.length / 8) := by omega
  have same := groups_eq ((rows 8 whole).map fun byte => UInt8.ofNat (number byte)) five few (by
    rw [bits_of_bytes count, ← all, List.flatMap_def])
  have back : (ns.map (bits 5)).map number = ns := by
    rw [List.map_map]
    conv => rhs; rw [← List.map_id ns]
    exact List.map_congr_left fun n hn => number_bits 5 n (small n hn)
  rw [encode_eq, same, back]

theorem decode_eq_ok_iff {symbols bytes : Bytes} : decode symbols = .ok bytes ↔ encode bytes = symbols :=
  ⟨encode_of_decode, fun h => h ▸ decode_encode bytes⟩

end ContentChunks.Base32
