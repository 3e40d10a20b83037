/-
Codes for the sound of words. A code is the first letter of a word and the
classes of its first three consonants of different sound; words that are
spelled alike or sound alike have the same code.
-/
namespace ContentChunks.Phonetic

/-- The classes of consonants, each with the digit that stands for it. -/
def classes : List (Char × List Char) :=
  [('1', ['B', 'F', 'P', 'V']), ('2', ['C', 'G', 'J', 'K', 'Q', 'S', 'X', 'Z']), ('3', ['D', 'T']),
    ('4', ['L']), ('5', ['M', 'N']), ('6', ['R'])]

/-- The digit for the class of a capital letter; vowels and the like have none. -/
def digit? (letter : Char) : Option Char :=
  (classes.find? fun c => c.2.contains letter).map (·.1)

/-- The letters of a word, in capitals. -/
def letters (word : String) : List Char := (word.toList.filter Char.isAlpha).map Char.toUpper

/-- Reads letters until as many digits are had as are wanted, after the digit `last`. A letter
without a digit is passed over, and so is one with the last digit over again. -/
def digitsAfter (last : Option Char) : (wanted : Nat) → List Char → List Char
  | 0, _ => []
  | _ + 1, [] => []
  | wanted + 1, letter :: rest =>
    match digit? letter with
    | none => digitsAfter last (wanted + 1) rest
    | some d =>
      if last = some d then digitsAfter last (wanted + 1) rest
      else d :: digitsAfter (some d) wanted rest

/-- The digits of the letters after the first: equal ones in a row count once,
and the first three are kept. -/
def digits (rest : List Char) : List Char := digitsAfter none 3 rest

/-- The code of a word; missing digits are zeros. A word without letters is its own code. -/
def code (word : String) : String :=
  match letters word with
  | [] => word
  | first :: rest =>
    String.ofList (first :: (digits rest ++ List.replicate (3 - (digits rest).length) '0'))

end ContentChunks.Phonetic
