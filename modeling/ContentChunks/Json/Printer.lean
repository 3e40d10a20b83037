/-
Writing JSON values, without blanks. A number that is not a plain one is not
kept, so a zero stands for it.
-/
import ContentChunks.Json

namespace ContentChunks.Json

def fourDigits (n : Nat) : List Char :=
  [Nat.digitChar (n / 4096 % 16), Nat.digitChar (n / 256 % 16), Nat.digitChar (n / 16 % 16),
    Nat.digitChar (n % 16)]

/-- The escapes that have a letter of their own. -/
def shortEscapes : List (Nat × Char) :=
  [(0x22, '"'), (0x5C, '\\'), (0x08, 'b'), (0x0C, 'f'), (0x0A, 'n'), (0x0D, 'r'), (0x09, 't')]

/-- How a mark is written. -/
def Mark.chars : Mark → List Char
  | .char c => [c]
  | .escaped unit =>
    match shortEscapes.find? fun e => e.1 == unit with
    | some (_, letter) => ['\\', letter]
    | none => '\\' :: 'u' :: fourDigits unit

def Text.chars (text : Text) : List Char := '"' :: (text.flatMap Mark.chars ++ ['"'])

mutual

def chars : Json → List Char
  | .null => ['n', 'u', 'l', 'l']
  | .bool true => ['t', 'r', 'u', 'e']
  | .bool false => ['f', 'a', 'l', 's', 'e']
  | .number n => Nat.toDigits 10 n
  | .otherNumber => ['0']
  | .string text => text.chars
  | .array [] => ['[', ']']
  | .array (item :: rest) => '[' :: (item.chars ++ itemsChars rest)
  | .object [] => ['\x7b', '\x7d']
  | .object ((key, value) :: rest) => '\x7b' :: (key.chars ++ ':' :: (value.chars ++ membersChars rest))

/-- The items after the first, and the end of the array. -/
def itemsChars : List Json → List Char
  | [] => [']']
  | item :: rest => ',' :: (item.chars ++ itemsChars rest)

/-- The members after the first, and the end of the object. -/
def membersChars : List (Text × Json) → List Char
  | [] => ['\x7d']
  | (key, value) :: rest => ',' :: (key.chars ++ ':' :: (value.chars ++ membersChars rest))

end

def render (j : Json) : String := String.ofList j.chars

end ContentChunks.Json
