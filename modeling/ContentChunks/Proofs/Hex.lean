/-
Hexadecimal text that is read as bytes. A pair of characters is read as a number
is, which may begin with a plus sign; so a text is read just if it has an even
length and each character is a digit of either case, or a plus sign at an even
place. The bytes are those that are written so in lowercase, with a zero for
each plus sign.

Main statements:
- `exists_bytes?_iff`: which texts are read.
- `digits_of_bytes?`: how the bytes that are read are written.
- `Signature.ofHex?_legible`: which texts are read as a digest of an algorithm,
  and that no others than digits are, but for the plus signs.
-/
import ContentChunks.Signature
import Mathlib.Logic.Basic

namespace ContentChunks

namespace Hex

/-- Whether a character is a hexadecimal digit of either case. -/
def IsDigit (c : Char) : Prop := ('0' ≤ c ∧ c ≤ '9') ∨ ('a' ≤ c ∧ c ≤ 'f') ∨ ('A' ≤ c ∧ c ≤ 'F')

instance : DecidablePred IsDigit := fun c =>
  inferInstanceAs (Decidable (('0' ≤ c ∧ c ≤ '9') ∨ ('a' ≤ c ∧ c ≤ 'f') ∨ ('A' ≤ c ∧ c ≤ 'F')))

/-- Whether each character is a digit, or a plus sign at an even place. -/
def Legible (cs : List Char) : Prop := ∀ i c, cs[i]? = some c → IsDigit c ∨ (i % 2 = 0 ∧ c = '+')

/-- How a character is written that was read. -/
def written (c : Char) : Char := if c = '+' then '0' else c.toLower

/-! ## One digit -/

theorem exists_offset {low high c : Char} (h : low ≤ c ∧ c ≤ high) :
    ∃ k < high.toNat + 1 - low.toNat, c = Char.ofNat (low.toNat + k) := by
  have least : low.toNat ≤ c.toNat := h.1
  have most : c.toNat ≤ high.toNat := h.2
  refine ⟨c.toNat - low.toNat, by omega, ?_⟩
  rw [Nat.add_sub_cancel' least, Char.ofNat_toNat]

theorem value?_of_isDigit {c : Char} (h : IsDigit c) : ∃ n < 16, value? c = some n ∧ digit n = c.toLower := by
  have decimal : ∀ k < 10, ∃ n < 16, value? (Char.ofNat (48 + k)) = some n ∧
      digit n = (Char.ofNat (48 + k)).toLower := by decide
  have small : ∀ k < 6, ∃ n < 16, value? (Char.ofNat (97 + k)) = some n ∧
      digit n = (Char.ofNat (97 + k)).toLower := by decide
  have capital : ∀ k < 6, ∃ n < 16, value? (Char.ofNat (65 + k)) = some n ∧
      digit n = (Char.ofNat (65 + k)).toLower := by decide
  rcases h with h | h | h
  · obtain ⟨k, bound, rfl⟩ := exists_offset h
    exact decimal k bound
  · obtain ⟨k, bound, rfl⟩ := exists_offset h
    exact small k bound
  · obtain ⟨k, bound, rfl⟩ := exists_offset h
    exact capital k bound

theorem value?_of_not_isDigit {c : Char} (h : ¬IsDigit c) : value? c = none := by
  unfold IsDigit at h
  rw [not_or, not_or] at h
  rw [value?, if_neg h.1, if_neg h.2.1, if_neg h.2.2]

theorem IsDigit.ne_plus {c : Char} (h : IsDigit c) : c ≠ '+' := by
  rintro rfl
  exact absurd h (by decide)

theorem written_of_isDigit {c : Char} (h : IsDigit c) : written c = c.toLower := if_neg h.ne_plus

/-! ## Pairs -/

section

variable {high low : Char}

theorem byte?_of_legible (first : IsDigit high ∨ high = '+') (second : IsDigit low) :
    ∃ b, byte? high low = some b ∧ digits [b] = [written high, written low] := by
  obtain ⟨l, boundLow, readLow, writtenLow⟩ := value?_of_isDigit second
  have leading : ∃ h < 16, digit h = written high ∧
      byte? high low = (value? low).map fun l => UInt8.ofNat (16 * h + l) := by
    rcases first with first | rfl
    · obtain ⟨h, bound, read, same⟩ := value?_of_isDigit first
      refine ⟨h, bound, by rw [same, written_of_isDigit first], ?_⟩
      rw [byte?, if_neg first.ne_plus, read]
      cases value? low <;> rfl
    · refine ⟨0, by decide, rfl, ?_⟩
      rw [byte?, if_pos rfl]
      cases value? low <;> rfl
  obtain ⟨h, boundHigh, writtenHigh, read⟩ := leading
  have value : (UInt8.ofNat (16 * h + l)).toNat = 16 * h + l := by
    rw [UInt8.toNat_ofNat']
    omega
  refine ⟨UInt8.ofNat (16 * h + l), by rw [read, readLow, Option.map_some], ?_⟩
  rw [digits_cons, value, show (16 * h + l) / 16 = h by omega, show (16 * h + l) % 16 = l by omega, writtenHigh,
    writtenLow, written_of_isDigit second]
  rfl

theorem byte?_of_not_legible (h : ¬((IsDigit high ∨ high = '+') ∧ IsDigit low)) : byte? high low = none := by
  rw [not_and_or, not_or] at h
  rcases h with ⟨noDigit, noPlus⟩ | noDigit
  · simp [byte?, noPlus, value?_of_not_isDigit noDigit]
  · simp [byte?, value?_of_not_isDigit noDigit]

theorem legible_cons_cons {rest : List Char} :
    Legible (high :: low :: rest) ↔ ((IsDigit high ∨ high = '+') ∧ IsDigit low) ∧ Legible rest := by
  constructor
  · intro legible
    refine ⟨⟨(legible 0 high rfl).imp_right (·.2), (legible 1 low rfl).resolve_right (by simp)⟩, fun i c found => ?_⟩
    have even : (i + 2) % 2 = i % 2 := by omega
    exact even ▸ legible (i + 2) c found
  · intro ⟨⟨first, second⟩, legible⟩ i c found
    match i with
    | 0 =>
      obtain rfl := Option.some.inj found
      exact first.imp_right fun plus => ⟨rfl, plus⟩
    | 1 =>
      obtain rfl := Option.some.inj found
      exact .inl second
    | i + 2 =>
      have even : (i + 2) % 2 = i % 2 := by omega
      exact even ▸ legible i c found

end

/-! ## Texts -/

/-- **A text is read** just if its length is even and each character is a digit, or a plus sign
at an even place. -/
theorem exists_bytes?_iff (cs : List Char) : (∃ bytes, bytes? cs = some bytes) ↔ cs.length % 2 = 0 ∧ Legible cs := by
  fun_induction bytes? cs with
  | case1 => simp [Legible]
  | case2 => simp
  | case3 high low rest ih =>
    have even : (high :: low :: rest).length % 2 = rest.length % 2 := Nat.add_mod_right rest.length 2
    rw [legible_cons_cons, and_left_comm, even, ← ih]
    by_cases legible : (IsDigit high ∨ high = '+') ∧ IsDigit low
    · obtain ⟨b, read, -⟩ := byte?_of_legible legible.1 legible.2
      cases tail : bytes? rest <;> simp [legible, read]
    · simp [legible, byte?_of_not_legible legible]

/-- **What is read is written** as the text in lowercase, with zeros for plus signs. -/
theorem digits_of_bytes? {cs : List Char} {bytes : Bytes} (h : bytes? cs = some bytes) :
    digits bytes = cs.map written := by
  induction cs using bytes?.induct generalizing bytes with
  | case1 =>
    obtain rfl := Option.some.inj h
    rfl
  | case2 => cases h
  | case3 high low rest ih =>
    by_cases legible : (IsDigit high ∨ high = '+') ∧ IsDigit low
    · obtain ⟨b, read, same⟩ := byte?_of_legible legible.1 legible.2
      cases tail : bytes? rest with
      | none => simp [bytes?, read, tail] at h
      | some bs =>
        obtain rfl : b :: bs = bytes := by simpa [bytes?, read, tail] using h
        have parts : digits (b :: bs) = digits [b] ++ digits bs := rfl
        rw [parts, same, ih tail]
        rfl
    · simp [bytes?, byte?_of_not_legible legible] at h

end Hex

namespace Signature

/-- Whether a text is read as a digest of an algorithm just if it consists of digits, as many as
the digest takes, and then as the digest that is written so in lowercase. -/
def ReadsDigits (a : Algorithm) (text : String) : Prop :=
  ((∃ s, ofHex? a text = some s) ↔
    text.toList.length = 2 * a.digestLength ∧ ∀ c ∈ text.toList, Hex.IsDigit c) ∧
  ∀ s, ofHex? a text = some s → s.hex.toList = text.toList.map Char.toLower

theorem ofHex?_eq_some_iff {a : Algorithm} {text : String} {s : Signature} :
    ofHex? a text = some s ↔
      text.toList.length = 2 * a.digestLength ∧ Hex.bytes? text.toList = some s.digest ∧ s.algorithm = a := by
  obtain ⟨algorithm, digest⟩ := s
  unfold ofHex?
  split
  · rename_i sized
    simp [sized, eq_comm]
  · rename_i other
    simp [other]

/-- Reading a digest reads as many characters as it takes, each a digit or a plus sign at an even place. -/
theorem exists_ofHex?_iff (a : Algorithm) (text : String) :
    (∃ s, ofHex? a text = some s) ↔ text.toList.length = 2 * a.digestLength ∧ Hex.Legible text.toList := by
  have even (n : Nat) : 2 * n % 2 = 0 := Nat.mul_mod_right 2 n
  constructor
  · intro ⟨s, read⟩
    obtain ⟨length, bytes, -⟩ := ofHex?_eq_some_iff.1 read
    exact ⟨length, ((Hex.exists_bytes?_iff _).1 ⟨_, bytes⟩).2⟩
  · intro ⟨length, legible⟩
    obtain ⟨bytes, read⟩ := (Hex.exists_bytes?_iff _).2 ⟨length ▸ even _, legible⟩
    exact ⟨⟨a, bytes⟩, ofHex?_eq_some_iff.2 ⟨length, read, rfl⟩⟩

theorem of_ofHex? {a : Algorithm} {text : String} {s : Signature} (h : ofHex? a text = some s) :
    s.algorithm = a ∧ s.Sized ∧ s.hex.toList = text.toList.map Hex.written := by
  obtain ⟨length, read, rfl⟩ := ofHex?_eq_some_iff.1 h
  have digits := Hex.digits_of_bytes? read
  refine ⟨rfl, ?_, ?_⟩
  · have lengths := congrArg List.length digits
    rw [Hex.length_digits, List.length_map, length] at lengths
    exact Nat.eq_of_mul_eq_mul_left (by decide) lengths
  · rw [hex, Hex.encode, String.toList_ofList, digits]

theorem ofHex?_hex {s : Signature} (sized : s.Sized) : ofHex? s.algorithm s.hex = some s := by
  refine ofHex?_eq_some_iff.2 ⟨?_, ?_, rfl⟩
  · rw [hex, Hex.encode, String.toList_ofList, Hex.length_digits, sized]
  · rw [hex, Hex.encode, String.toList_ofList, Hex.bytes?_digits]

theorem readsDigits_of {a : Algorithm} {text : String} (h : ofHex? a text = none ∨ '+' ∉ text.toList) :
    ReadsDigits a text := by
  have digits (plain : '+' ∉ text.toList) : Hex.Legible text.toList ↔ ∀ c ∈ text.toList, Hex.IsDigit c := by
    constructor
    · intro legible c mem
      obtain ⟨i, found⟩ := List.mem_iff_getElem?.1 mem
      exact (legible i c found).resolve_right fun plus => plain (plus.2 ▸ mem)
    · exact fun all i c found => .inl (all c (List.mem_of_getElem? found))
  refine ⟨⟨fun ⟨s, read⟩ => ?_, fun ⟨length, all⟩ => ?_⟩, fun s read => ?_⟩
  · have ⟨length, legible⟩ := (exists_ofHex?_iff a text).1 ⟨s, read⟩
    exact ⟨length, (digits (h.resolve_left (by simp [read]))).1 legible⟩
  · exact (exists_ofHex?_iff a text).2 ⟨length, fun i c found => .inl (all c (List.mem_of_getElem? found))⟩
  · have plain := h.resolve_left (by simp [read])
    rw [(of_ofHex? read).2.2]
    exact List.map_congr_left fun c mem => if_neg fun plus : c = '+' => plain (plus ▸ mem)

/-- **A digest is read from digits alone, but for plus signs**: a text that is read consists of as
many characters as the digest takes, each a hexadecimal digit of either case or a plus sign at an
even place, and the digest is the one that is written so in lowercase with zeros for the plus signs.
So it is read from digits, and as what they say, just if it is refused or has no plus sign. What is
written for a digest of the right length is read as it. -/
theorem ofHex?_legible (a : Algorithm) (text : String) :
    ((∃ s, ofHex? a text = some s) ↔ text.toList.length = 2 * a.digestLength ∧ Hex.Legible text.toList) ∧
    (∀ s, ofHex? a text = some s →
      s.algorithm = a ∧ s.Sized ∧ s.hex.toList = text.toList.map Hex.written) ∧
    (ReadsDigits a text ↔ ofHex? a text = none ∨ '+' ∉ text.toList) ∧
    ∀ s : Signature, s.algorithm = a → s.Sized → ofHex? a s.hex = some s := by
  refine ⟨exists_ofHex?_iff a text, fun s => of_ofHex?, ⟨fun digits => ?_, readsDigits_of⟩, ?_⟩
  · cases read : ofHex? a text with
    | none => exact .inl rfl
    | some s => exact .inr fun plus => ((digits.1.1 ⟨s, read⟩).2 _ plus).ne_plus rfl
  · rintro s rfl sized
    exact ofHex?_hex sized

/-- Capital digits after a plus sign, and what is written for the digest that is read from them. -/
theorem ofHex?_legible_capitals :
    let text := String.ofList ('+' :: 'F' :: (List.replicate 31 ['A', '0']).flatten)
    let s : Signature := ⟨.sha256, 0x0F :: List.replicate 31 0xA0⟩
    ofHex? .sha256 text = some s ∧ s.Sized ∧ s.hex.toList = text.toList.map Hex.written ∧
      s.hex = String.ofList ('0' :: 'f' :: (List.replicate 31 ['a', '0']).flatten) ∧
      ofHex? .sha256 s.hex = some s ∧ ReadsDigits .sha256 s.hex := by
  intro text s
  have read : ofHex? .sha256 text = some s := by decide +kernel
  obtain ⟨-, reads, -, back⟩ := ofHex?_legible .sha256 text
  obtain ⟨-, -, digits, -⟩ := ofHex?_legible .sha256 s.hex
  obtain ⟨algorithm, sized, written⟩ := reads s read
  exact ⟨read, sized, written, by decide +kernel, back s algorithm sized, digits.2 (.inr (by decide +kernel))⟩

/-- **A plus sign is read as if it were a digit**: a text with one is read as a digest, though it
consists of other characters than digits. -/
theorem readsDigits_not_plus :
    let text := String.ofList ('+' :: 'f' :: List.replicate 62 '0')
    ofHex? .sha256 text = some ⟨.sha256, 0x0F :: List.replicate 31 0⟩ ∧ ¬ReadsDigits .sha256 text := by
  intro text
  have read : ofHex? .sha256 text = some ⟨.sha256, 0x0F :: List.replicate 31 0⟩ := by decide +kernel
  refine ⟨read, fun digits => ?_⟩
  have plus : Hex.IsDigit '+' := (digits.1.1 ⟨_, read⟩).2 '+' (by decide +kernel)
  exact plus.ne_plus rfl

end Signature

end ContentChunks
