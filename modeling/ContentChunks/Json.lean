/-
JSON values. A string is kept as it is written, character by character and
escape by escape, since what it stands for depends on what is asked of it: as
text it has no bare control characters and its surrogates are paired, as bytes
it may have any of them.
-/
import ContentChunks.Utf8

namespace ContentChunks

/-- A mark of a string: a character that stands for itself, or an escaped unit of UTF-16. -/
inductive Json.Mark where
  | char (c : Char)
  | escaped (unit : Nat)
deriving DecidableEq, Repr

/-- A string as it is written. -/
abbrev Json.Text := List Json.Mark

inductive Json where
  | null
  | bool (b : Bool)
  /-- A number without sign, fraction and exponent. -/
  | number (n : Nat)
  /-- A number of any other form. -/
  | otherNumber
  | string (text : Json.Text)
  | array (items : List Json)
  | object (members : List (Json.Text × Json))
deriving Repr

namespace Json

/-! ## Strings -/

/-- Whether a unit is the first of a pair. -/
def leading (unit : Nat) : Bool := 0xD800 ≤ unit && unit ≤ 0xDBFF

/-- Whether a unit is the second of a pair. -/
def trailing (unit : Nat) : Bool := 0xDC00 ≤ unit && unit ≤ 0xDFFF

/-- The code point of a pair. -/
def paired (high low : Nat) : Nat := 0x10000 + 0x400 * (high - 0xD800) + (low - 0xDC00)

/-- A code point in the manner of UTF-8, also if it is a surrogate. -/
def pointBytes (n : Nat) : Bytes :=
  if n < 0x80 then [UInt8.ofNat n]
  else if n < 0x800 then [UInt8.ofNat (0xC0 + n / 64), UInt8.ofNat (0x80 + n % 64)]
  else if n < 0x10000 then
    [UInt8.ofNat (0xE0 + n / 4096), UInt8.ofNat (0x80 + n / 64 % 64), UInt8.ofNat (0x80 + n % 64)]
  else [UInt8.ofNat (0xF0 + n / 262144), UInt8.ofNat (0x80 + n / 4096 % 64),
    UInt8.ofNat (0x80 + n / 64 % 64), UInt8.ofNat (0x80 + n % 64)]

/-- The bytes that a string stands for; a surrogate without its partner stands for itself. -/
def Text.bytes : Text → Bytes
  | [] => []
  | .char c :: rest => String.utf8EncodeChar c ++ Text.bytes rest
  | .escaped high :: .escaped low :: rest =>
    if leading high && trailing low then pointBytes (paired high low) ++ Text.bytes rest
    else pointBytes high ++ Text.bytes (.escaped low :: rest)
  | .escaped unit :: rest => pointBytes unit ++ Text.bytes rest

/-- Whether no control character stands in the string bare. -/
def Text.plain (text : Text) : Bool :=
  text.all fun mark =>
    match mark with
    | .char c => 0x20 ≤ c.toNat
    | .escaped _ => true

/-- The text that a string stands for. -/
def Text.value? (text : Text) : Option String :=
  if text.plain then Utf8.text? text.bytes else none

/-- The mark for a character: quotation marks, backslashes and control characters are escaped. -/
def Mark.of (c : Char) : Mark :=
  if c = '"' ∨ c = '\\' ∨ c.toNat < 0x20 then .escaped c.toNat else .char c

/-- How a text is written. -/
def Text.of (s : String) : Text := s.toList.map Mark.of

/-! ## Values -/

def ofText (s : String) : Json := .string (Text.of s)

/-- The object with the given members. -/
def ofMembers (members : List (String × Json)) : Json :=
  .object (members.map fun (key, value) => (Text.of key, value))

mutual

/-- Whether no control character stands bare in any string of a value. -/
def plain : Json → Bool
  | .string text => text.plain
  | .array items => plainItems items
  | .object members => plainMembers members
  | _ => true

/-- Whether all values are plain. -/
def plainItems : List Json → Bool
  | [] => true
  | item :: rest => item.plain && plainItems rest

/-- Whether all keys and values are plain. -/
def plainMembers : List (Text × Json) → Bool
  | [] => true
  | (key, value) :: rest => key.plain && value.plain && plainMembers rest

end

end Json

end ContentChunks
