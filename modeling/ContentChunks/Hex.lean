/-
Hexadecimal text. A byte is written as two lowercase digits; reading takes
digits of either case, and a pair may also be a plus sign and one digit.
-/
import ContentChunks.Bytes

namespace ContentChunks.Hex

/-- The digit that stands for `n < 16`. -/
def digit (n : Nat) : Char := Nat.digitChar n

/-- Two digits a byte, the high half first. -/
def digits (bytes : Bytes) : List Char :=
  bytes.flatMap fun b => [digit (b.toNat / 16), digit (b.toNat % 16)]

/-- The bytes as lowercase hexadecimal text. -/
def encode (bytes : Bytes) : String := String.ofList (digits bytes)

/-- The value of a hexadecimal digit of either case. -/
def value? (c : Char) : Option Nat :=
  if '0' ≤ c ∧ c ≤ '9' then some (c.toNat - '0'.toNat)
  else if 'a' ≤ c ∧ c ≤ 'f' then some (c.toNat - 'a'.toNat + 10)
  else if 'A' ≤ c ∧ c ≤ 'F' then some (c.toNat - 'A'.toNat + 10)
  else none

/-- The byte that a pair of characters stands for. -/
def byte? (high low : Char) : Option UInt8 := do
  let h ← if high = '+' then some 0 else value? high
  let l ← value? low
  return UInt8.ofNat (16 * h + l)

/-- Reads a text pair by pair; a last single character is refused. -/
def bytes? : List Char → Option Bytes
  | [] => some []
  | [_] => none
  | high :: low :: rest => do
    let b ← byte? high low
    let bs ← bytes? rest
    return b :: bs

theorem digits_cons (b : UInt8) (rest : Bytes) :
    digits (b :: rest) = digit (b.toNat / 16) :: digit (b.toNat % 16) :: digits rest := rfl

@[simp] theorem length_digits (bytes : Bytes) : (digits bytes).length = 2 * bytes.length := by
  induction bytes with
  | nil => rfl
  | cons b rest ih => simp [digits_cons, ih]; omega

theorem value?_digit : ∀ n < 16, value? (digit n) = some n := by decide

theorem digit_ne_plus : ∀ n < 16, digit n ≠ '+' := by decide

theorem byte?_digits (b : UInt8) : byte? (digit (b.toNat / 16)) (digit (b.toNat % 16)) = some b := by
  have hb : b.toNat < 256 := b.toNat_lt
  have hh : b.toNat / 16 < 16 := by omega
  have hl : b.toNat % 16 < 16 := by omega
  have hs : 16 * (b.toNat / 16) + b.toNat % 16 = b.toNat := by omega
  simp [byte?, digit_ne_plus _ hh, value?_digit _ hh, value?_digit _ hl, hs, -UInt8.ofNat_add,
    -UInt8.ofNat_mul]

theorem bytes?_digits (bytes : Bytes) : bytes? (digits bytes) = some bytes := by
  induction bytes with
  | nil => rfl
  | cons b rest ih => simp [digits_cons, bytes?, byte?_digits, ih]

end ContentChunks.Hex
