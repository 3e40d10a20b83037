/-
Byte strings that are read as text whatever they are. An ill-formed piece becomes
one character, and so does what is well formed but no ASCII: neither has an ASCII
byte in it, and neither becomes an ASCII character. So ASCII is read byte by byte
in whatever it stands (`Reads`).

A character is unfinished while bytes of it are missing. What it may still become
is told by `Wide`: with any of the bytes that may follow, a character beyond ASCII.

Main statement: `reads_lossy`.
-/
import ContentChunks.Proofs.Utf8

namespace ContentChunks.Utf8

/-- Whether characters are what bytes are read as: an ASCII byte is its own character, and any
other character stands for some bytes beyond ASCII. -/
inductive Reads : Bytes → List Char → Prop where
  | nil : Reads [] []
  | ascii {b : UInt8} {rest : Bytes} {cs : List Char} (small : b < 0x80) (reads : Reads rest cs) :
    Reads (b :: rest) (Char.ofNat b.toNat :: cs)
  | beyond {piece rest : Bytes} {c : Char} {cs : List Char} (filled : piece ≠ []) (large : ∀ b ∈ piece, 0x80 ≤ b)
    (other : 0x80 ≤ c.toNat) (reads : Reads rest cs) : Reads (piece ++ rest) (c :: cs)

/-- The characters that scalar values are read as. -/
def shown (scalars : List (Option Char)) : List Char := scalars.map fun c => c.getD '\uFFFD'

/-- Whether the bits of a character beyond ASCII are had with any bits of the bytes that are missing. -/
def Wide : (missing : Nat) → (value : Nat) → Prop
  | 0, value => 0x80 ≤ value ∧ value.isValidChar
  | missing + 1, value => ∀ k < 64, Wide missing (64 * value + k)

/-- Whether an unfinished character comes of some bytes: none of them is ASCII, no ASCII byte
goes on with it, and with any that does it becomes a character beyond ASCII. -/
structure Unfinished.Of (u : Unfinished) (seen : Bytes) : Prop where
  filled : seen ≠ []
  large : ∀ b ∈ seen, 0x80 ≤ b
  waits : 1 ≤ u.missing
  least : 0x80 ≤ u.low.toNat
  wide : ∀ b : UInt8, u.low ≤ b → b ≤ u.high → Wide (u.missing - 1) (64 * u.value + b.toNat % 64)

theorem toNat_ofNat_of_wide {n : Nat} (wide : Wide 0 n) : 0x80 ≤ (Char.ofNat n).toNat := by
  obtain ⟨large, valid⟩ := wide
  have same : (Char.ofNat n).toNat = n := val_ofNat valid
  omega

/-! ## First bytes -/

/-- The first byte of a character beyond ASCII. -/
theorem unfinished_of {b : UInt8} {v missing : Nat} {low high : UInt8} (large : 0x80 ≤ b.toNat) (waits : 1 ≤ missing)
    (least : 0x80 ≤ low.toNat) (most : high.toNat ≤ 0xBF)
    (wide : ∀ k < 64, low.toNat ≤ k + 128 → k + 128 ≤ high.toNat → Wide (missing - 1) (64 * v + k)) :
    (Unfinished.mk v missing low high).Of [b] where
  filled := by simp
  large := by simpa [UInt8.le_iff_toNat_le] using large
  waits := waits
  least := least
  wide c above below := by
    have above : low.toNat ≤ c.toNat := above
    have below : c.toNat ≤ high.toNat := below
    exact wide (c.toNat % 64) (by omega) (by omega) (by omega)

theorem wide_zero {n : Nat} : Wide 0 n ↔ 0x80 ≤ n ∧ (n < 0xD800 ∨ (0xDFFF < n ∧ n < 0x110000)) := Iff.rfl

/-- **The first byte** is an ASCII character, or begins none, or begins one beyond ASCII. -/
theorem first_cases (b : UInt8) :
    (b < 0x80 ∧ first b = ⟨[some (Char.ofNat b.toNat)], none⟩) ∨
    (0x80 ≤ b ∧ first b = ⟨[none], none⟩) ∨
    ∃ u, first b = ⟨[], some u⟩ ∧ u.Of [b] := by
  by_cases ascii : b.toNat < 0x80
  · exact .inl ⟨ascii, if_pos ascii⟩
  by_cases two : 194 ≤ b.toNat ∧ b.toNat < 224
  · refine .inr (.inr ⟨_, first_of_two two, unfinished_of (by omega) (by decide) (by decide) (by decide) ?_⟩)
    intro k _ _ _
    rw [wide_zero]
    omega
  by_cases three : 224 ≤ b.toNat ∧ b.toNat < 240
  · refine .inr (.inr ⟨_, first_of_three three, unfinished_of (by omega) (by decide) ?_ ?_ ?_⟩)
    · split <;> decide
    · split <;> decide
    · intro k _ least most k' _
      rw [wide_zero]
      split at least <;> split at most <;> simp only [UInt8.reduceToNat] at least most <;> omega
  by_cases four : 240 ≤ b.toNat ∧ b.toNat < 245
  · refine .inr (.inr ⟨_, first_of_four four, unfinished_of (by omega) (by decide) ?_ ?_ ?_⟩)
    · split <;> decide
    · split <;> decide
    · intro k _ least most k' _ k'' _
      rw [wide_zero]
      split at least <;> split at most <;> simp only [UInt8.reduceToNat] at least most <;> omega
  · refine .inr (.inl ⟨Nat.le_of_not_lt ascii, ?_⟩)
    have byte := b.toNat_lt
    unfold first
    simp only [UInt8.lt_iff_toNat_lt, ← UInt8.toNat_inj, UInt8.reduceToNat]
    rw [if_neg (by omega)]
    split
    · rfl
    · repeat rw [if_neg (by omega)]

/-! ## Bytes that go on -/

theorem Unfinished.Of.large_concat {u : Unfinished} {seen : Bytes} {b : UInt8} (h : u.Of seen) (large : 0x80 ≤ b) :
    ∀ c ∈ seen ++ [b], 0x80 ≤ c :=
  List.forall_mem_append.2 ⟨h.large, List.forall_mem_singleton.2 large⟩

/-- **The next byte** goes on with a character, and may finish it; or the character is ill-formed,
and the byte is read afresh. -/
theorem next_cases {u : Unfinished} {seen : Bytes} (h : u.Of seen) (b : UInt8) :
    (0x80 ≤ b ∧ ((∃ c : Char, next (some u) b = ⟨[some c], none⟩ ∧ 0x80 ≤ c.toNat) ∨
      ∃ u', next (some u) b = ⟨[], some u'⟩ ∧ u'.Of (seen ++ [b]))) ∨
    next (some u) b = ⟨none :: (first b).settled, (first b).unfinished⟩ := by
  by_cases within : u.low ≤ b ∧ b ≤ u.high
  · have large : 0x80 ≤ b := Nat.le_trans h.least within.1
    have wide := h.wide b within.1 within.2
    refine .inl ⟨large, ?_⟩
    simp only [next, if_pos within]
    by_cases last : u.missing ≤ 1
    · rw [Nat.sub_eq_zero_of_le last] at wide
      simp only [if_pos last]
      exact .inl ⟨_, rfl, toNat_ofNat_of_wide wide⟩
    · simp only [if_neg last]
      obtain ⟨missing, more⟩ : ∃ missing, u.missing - 1 = missing + 1 := ⟨u.missing - 2, by omega⟩
      rw [more] at wide
      refine .inr ⟨_, rfl, by simp, h.large_concat large, ?_, Nat.le_refl 0x80, fun c _ _ => ?_⟩
      · exact more ▸ Nat.succ_pos missing
      · rw [more]
        exact wide _ (Nat.mod_lt _ (by decide))
  · exact .inr (by simp only [next, if_neg within])

/-! ## All bytes -/

/-- Bytes are read as what they say, at a boundary of characters and inside one. -/
theorem reads_scalarsFrom (data : Bytes) :
    Reads data (shown (scalarsFrom none data)) ∧
      ∀ u seen, Unfinished.Of u seen → Reads (seen ++ data) (shown (scalarsFrom (some u) data)) := by
  induction data with
  | nil => exact ⟨.nil, fun u seen h => .beyond h.filled h.large (by decide) .nil⟩
  | cons b rest ih =>
    obtain ⟨whole, inside⟩ := ih
    have afresh : Reads (b :: rest) (shown (scalarsFrom none (b :: rest))) := by
      rw [scalarsFrom_first]
      obtain ⟨small, same⟩ | ⟨large, same⟩ | ⟨u, same, begins⟩ := first_cases b
      · rw [same]
        exact .ascii small whole
      · rw [same, ← List.singleton_append]
        exact .beyond (by simp) (by simpa using large) (by decide) whole
      · rw [same]
        exact inside u [b] begins
    refine ⟨afresh, fun u seen h => ?_⟩
    have step : scalarsFrom (some u) (b :: rest) =
        (next (some u) b).settled ++ scalarsFrom (next (some u) b).unfinished rest := rfl
    rw [step]
    obtain ⟨large, ⟨c, same, other⟩ | ⟨u', same, goesOn⟩⟩ | same := next_cases h b
    · rw [same, ← List.singleton_append, ← List.append_assoc]
      exact .beyond (by simp) (h.large_concat large) other whole
    · rw [same, ← List.singleton_append, ← List.append_assoc]
      exact inside u' (seen ++ [b]) goesOn
    · rw [same]
      exact .beyond h.filled h.large (by decide) afresh

/-- **Whatever bytes are read as text**, ASCII in them is read byte by byte, and nothing else becomes ASCII. -/
theorem reads_lossy (data : Bytes) : Reads data (lossy data).toList := by
  rw [lossy, String.toList_ofList, scalars_eq]
  exact (reads_scalarsFrom data).1

end ContentChunks.Utf8
