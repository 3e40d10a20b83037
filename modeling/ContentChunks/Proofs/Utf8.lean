/-
A byte string that is read as a text is the text's UTF-8: nothing is lost and
nothing is read that would be written otherwise. Every text is read from its
own bytes.

Main statements:
- `first_char`: the first bytes of a well-formed string are those of its first character.
- `ofText_of_text?`: the bytes of a text that was read are those it was read from.
- `text?_ofText`: a text is read from its bytes.
-/
import ContentChunks.Utf8
import Mathlib.Algebra.Ring.Nat

namespace ContentChunks.Utf8

open String (utf8EncodeChar)

/-! ## Characters in bytes -/

theorem val_ofNat {n : Nat} (valid : n.isValidChar) : (Char.ofNat n).val.toNat = n := by
  have made : Char.ofNat n = Char.ofNatAux n valid := dif_pos valid
  rw [made]
  rfl

section

variable {n : Nat} {a b c d : UInt8} (valid : n.isValidChar)
include valid

theorem encode_one (small : n ≤ 0x7F) (ha : a.toNat = n) : utf8EncodeChar (Char.ofNat n) = [a] := by
  unfold utf8EncodeChar
  rw [val_ofNat valid]
  simp only [small, ↓reduceIte]
  rw [← ha, UInt8.ofNat_toNat]

theorem encode_two (low : 0x80 ≤ n) (high : n ≤ 0x7FF) (ha : a.toNat = n / 64 + 192)
    (hb : b.toNat = n % 64 + 128) : utf8EncodeChar (Char.ofNat n) = [a, b] := by
  have h1 : ¬n ≤ 127 := by omega
  have h2 : n / 64 % 32 = n / 64 := by omega
  unfold utf8EncodeChar
  rw [val_ofNat valid]
  simp only [h1, high, ↓reduceIte, h2, ← ha, ← hb, UInt8.ofNat_toNat]

theorem encode_three (low : 0x800 ≤ n) (high : n ≤ 0xFFFF) (ha : a.toNat = n / 4096 + 224)
    (hb : b.toNat = n / 64 % 64 + 128) (hc : c.toNat = n % 64 + 128) :
    utf8EncodeChar (Char.ofNat n) = [a, b, c] := by
  have h1 : ¬n ≤ 127 := by omega
  have h2 : ¬n ≤ 2047 := by omega
  have h3 : n / 4096 % 16 = n / 4096 := by omega
  unfold utf8EncodeChar
  rw [val_ofNat valid]
  simp only [h1, h2, high, ↓reduceIte, h3, ← ha, ← hb, ← hc, UInt8.ofNat_toNat]

theorem encode_four (low : 0x10000 ≤ n) (ha : a.toNat = n / 262144 + 240) (hb : b.toNat = n / 4096 % 64 + 128)
    (hc : c.toNat = n / 64 % 64 + 128) (hd : d.toNat = n % 64 + 128) :
    utf8EncodeChar (Char.ofNat n) = [a, b, c, d] := by
  have h1 : ¬n ≤ 127 := by omega
  have h2 : ¬n ≤ 2047 := by omega
  have h3 : ¬n ≤ 65535 := by omega
  have h4 : n / 262144 % 8 = n / 262144 := by
    unfold Nat.isValidChar at valid
    omega
  unfold utf8EncodeChar
  rw [val_ofNat valid]
  simp only [h1, h2, h3, ↓reduceIte, h4, ← ha, ← hb, ← hc, ← hd, UInt8.ofNat_toNat]

end

/-- A byte below 128 is a character by itself: it stands in no other one. -/
theorem toNat_of_mem_encode {c : Char} {b : UInt8} (h : b ∈ utf8EncodeChar c) (ascii : b.toNat < 0x80) :
    c.toNat = b.toNat := by
  have value {k : Nat} (same : b = UInt8.ofNat k) : b.toNat = k % 256 := by
    rw [same, UInt8.toNat_ofNat']
  show c.val.toNat = b.toNat
  unfold utf8EncodeChar at h
  dsimp only at h
  split at h
  · have := value (List.mem_singleton.1 h)
    omega
  -- a byte of any other character has its topmost bit
  · exfalso
    split at h
    · simp only [List.mem_cons, List.not_mem_nil, or_false] at h
      rcases h with h | h <;> have := value h <;> omega
    · split at h
      · simp only [List.mem_cons, List.not_mem_nil, or_false] at h
        rcases h with h | h | h <;> have := value h <;> omega
      · simp only [List.mem_cons, List.not_mem_nil, or_false] at h
        rcases h with h | h | h | h <;> have := value h <;> omega

/-! ## Characters that are unfinished -/

section

variable {v missing : Nat} {low high : UInt8} {rest : Bytes} {cs : List Char}

theorem goes_on (h : scalarsFrom (some ⟨v, missing, low, high⟩) rest = cs.map some) :
    ∃ b more, rest = b :: more ∧ low.toNat ≤ b.toNat ∧ b.toNat ≤ high.toNat ∧
      (if missing ≤ 1 then ⟨[some (Char.ofNat (64 * v + b.toNat % 64))], none⟩
        else ⟨[], some ⟨64 * v + b.toNat % 64, missing - 1, 0x80, 0xBF⟩⟩ : Progress) =
        next (some ⟨v, missing, low, high⟩) b ∧
      (next (some ⟨v, missing, low, high⟩) b).settled ++
        scalarsFrom (next (some ⟨v, missing, low, high⟩) b).unfinished more = cs.map some := by
  cases rest with
  | nil =>
    have failed : none ∈ cs.map some := by
      rw [← h]
      simp [scalarsFrom]
    simp at failed
  | cons b more =>
    have settled : (next (some ⟨v, missing, low, high⟩) b).settled ++
        scalarsFrom (next (some ⟨v, missing, low, high⟩) b).unfinished more = cs.map some := h
    by_cases within : low ≤ b ∧ b ≤ high
    · refine ⟨b, more, rfl, within.1, within.2, ?_, settled⟩
      simp only [next, within, and_self, ↓reduceIte]
    · have failed : none ∈ cs.map some := by
        rw [← settled]
        simp [next, within]
      simp at failed

theorem finish_one (h : scalarsFrom (some ⟨v, 1, low, high⟩) rest = cs.map some) :
    ∃ b more cs', rest = b :: more ∧ low.toNat ≤ b.toNat ∧ b.toNat ≤ high.toNat ∧
      cs = Char.ofNat (64 * v + b.toNat % 64) :: cs' ∧ scalarsFrom none more = cs'.map some := by
  obtain ⟨b, more, rfl, hl, hh, same, settled⟩ := goes_on h
  rw [← same] at settled
  obtain ⟨c, cs', rfl, rest⟩ : ∃ c cs', cs = c :: cs' ∧
      some (Char.ofNat (64 * v + b.toNat % 64)) :: scalarsFrom none more = some c :: cs'.map some := by
    cases cs with
    | nil => simp at settled
    | cons c cs' => exact ⟨c, cs', rfl, settled⟩
  obtain ⟨hc, hrest⟩ := List.cons.inj rest
  exact ⟨b, more, cs', rfl, hl, hh, by rw [Option.some.inj hc], hrest⟩

theorem finish_two (h : scalarsFrom (some ⟨v, 2, low, high⟩) rest = cs.map some) :
    ∃ b c more cs', rest = b :: c :: more ∧ low.toNat ≤ b.toNat ∧ b.toNat ≤ high.toNat ∧
      0x80 ≤ c.toNat ∧ c.toNat ≤ 0xBF ∧
      cs = Char.ofNat (64 * (64 * v + b.toNat % 64) + c.toNat % 64) :: cs' ∧ scalarsFrom none more = cs'.map some := by
  obtain ⟨b, more, rfl, hl, hh, same, settled⟩ := goes_on h
  rw [← same] at settled
  obtain ⟨c, more, cs', rfl, hl', hh', hc, hrest⟩ := finish_one settled
  exact ⟨b, c, more, cs', rfl, hl, hh, hl', hh', hc, hrest⟩

theorem finish_three (h : scalarsFrom (some ⟨v, 3, low, high⟩) rest = cs.map some) :
    ∃ b c d more cs', rest = b :: c :: d :: more ∧ low.toNat ≤ b.toNat ∧ b.toNat ≤ high.toNat ∧
      0x80 ≤ c.toNat ∧ c.toNat ≤ 0xBF ∧ 0x80 ≤ d.toNat ∧ d.toNat ≤ 0xBF ∧
      cs = Char.ofNat (64 * (64 * (64 * v + b.toNat % 64) + c.toNat % 64) + d.toNat % 64) :: cs' ∧
      scalarsFrom none more = cs'.map some := by
  obtain ⟨b, more, rfl, hl, hh, same, settled⟩ := goes_on h
  rw [← same] at settled
  obtain ⟨c, d, more, cs', rfl, hl', hh', hl'', hh'', hc, hrest⟩ := finish_two settled
  exact ⟨b, c, d, more, cs', rfl, hl, hh, hl', hh', hl'', hh'', hc, hrest⟩

end

/-- Whether a well-formed string starts with its first character, and is well-formed after it. -/
def Spelled (bytes : Bytes) (cs : List Char) : Prop :=
  ∃ c more cs', cs = c :: cs' ∧ bytes = utf8EncodeChar c ++ more ∧ scalarsFrom none more = cs'.map some

section

variable {a : UInt8} {v : Nat} {low high : UInt8} {rest : Bytes} {cs : List Char}

theorem spelled_two (h : scalarsFrom (some ⟨v, 1, 0x80, 0xBF⟩) rest = cs.map some) (lead : a.toNat = v + 192)
    (hv : 2 ≤ v ∧ v < 32) : Spelled (a :: rest) cs := by
  obtain ⟨b, more, cs', rfl, hl, hh, rfl, hrest⟩ := finish_one h
  simp only [UInt8.reduceToNat] at hl hh
  have spelling : utf8EncodeChar (Char.ofNat (64 * v + b.toNat % 64)) = [a, b] :=
    encode_two (.inl (by omega)) (by omega) (by omega) (by omega) (by omega)
  exact ⟨_, more, cs', rfl, by rw [spelling]; rfl, hrest⟩

/-- A character of three bytes is written with no fewer, and is no surrogate. -/
theorem spelled_three (h : scalarsFrom (some ⟨v, 2, low, high⟩) rest = cs.map some) (lead : a.toNat = v + 224)
    (hv : v < 16) (tail : 0x80 ≤ low.toNat ∧ high.toNat ≤ 0xBF) (long : v = 0 → 0xA0 ≤ low.toNat)
    (scalar : v = 13 → high.toNat ≤ 0x9F) : Spelled (a :: rest) cs := by
  obtain ⟨b, c, more, cs', rfl, hl, hh, hl', hh', rfl, hrest⟩ := finish_two h
  have valid : (64 * (64 * v + b.toNat % 64) + c.toNat % 64).isValidChar := by
    unfold Nat.isValidChar
    omega
  have spelling : utf8EncodeChar (Char.ofNat (64 * (64 * v + b.toNat % 64) + c.toNat % 64)) = [a, b, c] :=
    encode_three valid (by omega) (by omega) (by omega) (by omega) (by omega)
  exact ⟨_, more, cs', rfl, by rw [spelling]; rfl, hrest⟩

/-- A character of four bytes is written with no fewer, and is not beyond the last. -/
theorem spelled_four (h : scalarsFrom (some ⟨v, 3, low, high⟩) rest = cs.map some) (lead : a.toNat = v + 240)
    (hv : v < 5) (tail : 0x80 ≤ low.toNat ∧ high.toNat ≤ 0xBF) (long : v = 0 → 0x90 ≤ low.toNat)
    (scalar : v = 4 → high.toNat ≤ 0x8F) : Spelled (a :: rest) cs := by
  obtain ⟨b, c, d, more, cs', rfl, hl, hh, hl', hh', hl'', hh'', rfl, hrest⟩ := finish_three h
  have valid : (64 * (64 * (64 * v + b.toNat % 64) + c.toNat % 64) + d.toNat % 64).isValidChar := by
    unfold Nat.isValidChar
    omega
  have spelling : utf8EncodeChar (Char.ofNat (64 * (64 * (64 * v + b.toNat % 64) + c.toNat % 64) + d.toNat % 64)) =
      [a, b, c, d] := encode_four valid (by omega) (by omega) (by omega) (by omega) (by omega)
  exact ⟨_, more, cs', rfl, by rw [spelling]; rfl, hrest⟩

/-- **The first bytes of a well-formed string** are those of its first character. -/
theorem first_char (h : scalarsFrom none (a :: rest) = cs.map some) : Spelled (a :: rest) cs := by
  have settled : (first a).settled ++ scalarsFrom (first a).unfinished rest = cs.map some := h
  have failed {more : List (Option Char)} (h : none :: more = cs.map some) : False := by
    have mem : none ∈ cs.map some := by simp [← h]
    simp at mem
  have byte := a.toNat_lt
  unfold first at settled
  simp only [UInt8.lt_iff_toNat_lt, ← UInt8.toNat_inj, UInt8.reduceToNat] at settled
  -- the cases are those of the first byte: how many bytes follow, and which the next may be
  split at settled
  · cases cs with
    | nil => simp at settled
    | cons c cs =>
      obtain ⟨hc, hrest⟩ := List.cons.inj settled
      have spelling : utf8EncodeChar (Char.ofNat a.toNat) = [a] := encode_one (.inl (by omega)) (by omega) rfl
      exact ⟨c, rest, cs, rfl, by rw [← Option.some.inj hc, spelling]; rfl, hrest⟩
  split at settled
  · exact (failed settled).elim
  split at settled
  · exact spelled_two settled (by omega) (by omega)
  split at settled
  · exact spelled_three settled (by omega) (by omega) (by decide) (by decide) (by omega)
  split at settled
  · exact spelled_three settled (by omega) (by omega) (by decide) (by omega) (by decide)
  split at settled
  · exact spelled_three settled (by omega) (by omega) (by decide) (by omega) (by omega)
  split at settled
  · exact spelled_four settled (by omega) (by omega) (by decide) (by decide) (by omega)
  split at settled
  · exact spelled_four settled (by omega) (by omega) (by decide) (by omega) (by omega)
  split at settled
  · exact spelled_four settled (by omega) (by omega) (by decide) (by omega) (by decide)
  · exact (failed settled).elim

end

theorem flatMap_encode {bytes : Bytes} {cs : List Char} (h : scalarsFrom none bytes = cs.map some) :
    cs.flatMap utf8EncodeChar = bytes := by
  induction cs generalizing bytes with
  | nil =>
    cases bytes with
    | nil => rfl
    | cons a rest =>
      obtain ⟨c, more, cs', noChar, -⟩ := first_char h
      cases noChar
  | cons c cs ih =>
    cases bytes with
    | nil => simp [scalarsFrom] at h
    | cons a rest =>
      obtain ⟨c', more, cs', same, bytes, hrest⟩ := first_char h
      obtain ⟨rfl, rfl⟩ := List.cons.inj same
      rw [List.flatMap_cons, ih hrest, bytes]

theorem mapM_id_eq_some {α : Type} {items : List (Option α)} {found : List α} (h : items.mapM id = some found) :
    items = found.map some := by
  induction items generalizing found with
  | nil =>
    obtain rfl : [] = found := by simpa using h
    rfl
  | cons item items ih =>
    cases item with
    | none => simp [List.mapM_cons] at h
    | some one =>
      cases hm : items.mapM id with
      | none => simp [List.mapM_cons, hm] at h
      | some more =>
        obtain rfl : one :: more = found := by simpa [List.mapM_cons, hm] using h
        rw [ih hm, List.map_cons]

/-- **The bytes of a text that was read** are those that it was read from. -/
theorem ofText_of_text? {bytes : Bytes} {s : String} (h : text? bytes = some s) : Bytes.ofText s = bytes := by
  obtain ⟨cs, read, rfl⟩ := Option.map_eq_some_iff.1 h
  rw [scalars_eq] at read
  rw [Bytes.ofText, String.toList_ofList, flatMap_encode (mapM_id_eq_some read)]

/-! ## Reading what is written -/

section

variable {a b : UInt8} {v : Nat} {low high : UInt8} {more : Bytes}

theorem first_of_two (h : 194 ≤ a.toNat ∧ a.toNat < 224) :
    first a = ⟨[], some ⟨a.toNat % 32, 1, 0x80, 0xBF⟩⟩ := by
  unfold first
  simp only [UInt8.lt_iff_toNat_lt, UInt8.reduceToNat]
  rw [if_neg (by omega), if_neg (by omega), if_pos (by omega)]

/-- The next byte after the first of three is bounded so that the character is
written with no fewer and is no surrogate. -/
theorem first_of_three (h : 224 ≤ a.toNat ∧ a.toNat < 240) :
    first a = ⟨[], some ⟨a.toNat % 16, 2, if a.toNat = 224 then 0xA0 else 0x80,
      if a.toNat = 237 then 0x9F else 0xBF⟩⟩ := by
  unfold first
  simp only [UInt8.lt_iff_toNat_lt, ← UInt8.toNat_inj, UInt8.reduceToNat]
  rw [if_neg (by omega), if_neg (by omega), if_neg (by omega)]
  by_cases least : a.toNat = 224
  · simp [least]
  · by_cases surrogate : a.toNat = 237
    · simp [surrogate]
    · rw [if_neg least, if_neg surrogate, if_pos (by omega), if_neg least, if_neg surrogate]

/-- The next byte after the first of four is bounded so that the character is
written with no fewer and is not beyond the last. -/
theorem first_of_four (h : 240 ≤ a.toNat ∧ a.toNat < 245) :
    first a = ⟨[], some ⟨a.toNat % 8, 3, if a.toNat = 240 then 0x90 else 0x80,
      if a.toNat = 244 then 0x8F else 0xBF⟩⟩ := by
  unfold first
  simp only [UInt8.lt_iff_toNat_lt, ← UInt8.toNat_inj, UInt8.reduceToNat]
  rw [if_neg (by omega), if_neg (by omega), if_neg (by omega), if_neg (by omega), if_neg (by omega),
    if_neg (by omega)]
  by_cases least : a.toNat = 240
  · simp [least]
  · by_cases greatest : a.toNat = 244
    · simp [greatest]
    · rw [if_neg least, if_pos (by omega), if_neg least, if_neg greatest]

theorem scalarsFrom_last (within : low.toNat ≤ b.toNat ∧ b.toNat ≤ high.toNat) :
    scalarsFrom (some ⟨v, 1, low, high⟩) (b :: more) =
      some (Char.ofNat (64 * v + b.toNat % 64)) :: scalarsFrom none more := by
  have bounds : low ≤ b ∧ b ≤ high := within
  simp [scalarsFrom, next, bounds]

theorem scalarsFrom_more (n : Nat) (within : low.toNat ≤ b.toNat ∧ b.toNat ≤ high.toNat) :
    scalarsFrom (some ⟨v, n + 2, low, high⟩) (b :: more) =
      scalarsFrom (some ⟨64 * v + b.toNat % 64, n + 1, 0x80, 0xBF⟩) more := by
  have bounds : low ≤ b ∧ b ≤ high := within
  simp [scalarsFrom, next, bounds]

end

theorem scalarsFrom_first (a : UInt8) (more : Bytes) :
    scalarsFrom none (a :: more) = (first a).settled ++ scalarsFrom (first a).unfinished more := rfl

/-- **A character is read from its bytes**, whatever follows them. -/
theorem scalarsFrom_encode (c : Char) (more : Bytes) :
    scalarsFrom none (utf8EncodeChar c ++ more) = some c :: scalarsFrom none more := by
  have same : Char.ofNat c.val.toNat = c := Char.ofNat_toNat c
  have valid : c.val.toNat.isValidChar := c.valid
  unfold Nat.isValidChar at valid
  unfold utf8EncodeChar
  dsimp only
  generalize c.val.toNat = v at same valid
  -- the cases are those of how many bytes the character takes
  split
  · have byte : (UInt8.ofNat v).toNat = v := by simp; omega
    have low : UInt8.ofNat v < 0x80 := by
      simp only [UInt8.lt_iff_toNat_lt, byte, UInt8.reduceToNat]
      omega
    rw [List.singleton_append, scalarsFrom_first, first, if_pos low, byte, same]
    rfl
  have tail (k : Nat) : (UInt8.ofNat (k % 64 + 128)).toNat = k % 64 + 128 := by simp; omega
  split
  · have lead : (UInt8.ofNat (v / 64 % 32 + 192)).toNat = v / 64 + 192 := by simp; omega
    rw [List.cons_append, List.singleton_append, scalarsFrom_first, first_of_two (by omega),
      List.nil_append, scalarsFrom_last (by simp only [tail, UInt8.reduceToNat]; omega), lead, tail,
      show 64 * ((v / 64 + 192) % 32) + (v % 64 + 128) % 64 = v by omega, same]
  split
  · have lead : (UInt8.ofNat (v / 4096 % 16 + 224)).toNat = v / 4096 + 224 := by simp; omega
    rw [List.cons_append, List.cons_append, List.singleton_append, scalarsFrom_first,
      first_of_three (by omega), List.nil_append, scalarsFrom_more 0, scalarsFrom_last, lead, tail, tail,
      show 64 * (64 * ((v / 4096 + 224) % 16) + (v / 64 % 64 + 128) % 64) + (v % 64 + 128) % 64 = v by
        omega, same]
    · simp only [tail, UInt8.reduceToNat]
      omega
    · rw [lead, tail]
      split <;> split <;> simp only [UInt8.reduceToNat] <;> omega
  · have lead : (UInt8.ofNat (v / 262144 % 8 + 240)).toNat = v / 262144 + 240 := by simp; omega
    rw [List.cons_append, List.cons_append, List.cons_append, List.singleton_append, scalarsFrom_first,
      first_of_four (by omega), List.nil_append, scalarsFrom_more 1, scalarsFrom_more 0, scalarsFrom_last,
      lead, tail, tail, tail,
      show 64 * (64 * (64 * ((v / 262144 + 240) % 8) + (v / 4096 % 64 + 128) % 64) +
        (v / 64 % 64 + 128) % 64) + (v % 64 + 128) % 64 = v by omega, same]
    · simp only [tail, UInt8.reduceToNat]
      omega
    · simp only [tail, UInt8.reduceToNat]
      omega
    · rw [lead, tail]
      split <;> split <;> simp only [UInt8.reduceToNat] <;> omega

theorem scalarsFrom_flatMap_encode (cs : List Char) :
    scalarsFrom none (cs.flatMap utf8EncodeChar) = cs.map some := by
  induction cs with
  | nil => rfl
  | cons c cs ih => rw [List.flatMap_cons, scalarsFrom_encode, ih, List.map_cons]

/-- Items that are read back one by one are read back as a list. -/
theorem mapM_map_of_back {α β : Type} {write : α → β} {read : β → Option α} {items : List α}
    (back : ∀ a ∈ items, read (write a) = some a) : (items.map write).mapM read = some items := by
  induction items with
  | nil => rfl
  | cons a items ih =>
    obtain ⟨first, rest⟩ := List.forall_mem_cons.1 back
    simp [List.mapM_cons, first, ih rest]

/-- **A text is read from its bytes.** -/
theorem text?_ofText (s : String) : text? (Bytes.ofText s) = some s := by
  have read : (s.toList.map some).mapM id = some s.toList := mapM_map_of_back fun _ _ => rfl
  rw [text?, scalars_eq, Bytes.ofText, scalarsFrom_flatMap_encode, read, Option.map_some, String.ofList_toList]

theorem ofText_injective : Function.Injective Bytes.ofText := by
  intro s t same
  have read := text?_ofText s
  rw [same, text?_ofText] at read
  exact (Option.some.inj read).symm

theorem mem_ofText_iff {s : String} {c : Char} {b : UInt8} (spelling : utf8EncodeChar c = [b]) (ascii : b.toNat < 0x80) :
    b ∈ Bytes.ofText s ↔ c ∈ s.toList := by
  rw [Bytes.ofText, List.mem_flatMap]
  constructor
  · intro ⟨d, mem, hb⟩
    have own : c.toNat = b.toNat := toNat_of_mem_encode (by simp [spelling]) ascii
    have same : d.toNat = c.toNat := by rw [own, toNat_of_mem_encode hb ascii]
    have : d = c := by rw [← Char.ofNat_toNat d, same, Char.ofNat_toNat]
    rwa [← this]
  · intro mem
    exact ⟨c, mem, by simp [spelling]⟩

end ContentChunks.Utf8
