/-
The words of a text: its longest rows of ASCII letters, ASCII digits and
underscores. Everything else only separates words.
-/
namespace ContentChunks.Words

/-- Whether a character can stand in a word. -/
def inWord (c : Char) : Bool := c.isAlphanum || c == '_'

/-- Adds a row, written backwards, to the rows before it; an empty one is dropped. -/
def close (rows : List (List Char)) (row : List Char) : List (List Char) :=
  if row = [] then rows else row.reverse :: rows

/-- Reads on, with the rows that are closed, the last of them first, and the
row that is open, written backwards. -/
def scan (rows : List (List Char)) (row : List Char) : List Char → List (List Char)
  | [] => (close rows row).reverse
  | c :: rest => if inWord c then scan rows (c :: row) rest else scan (close rows row) [] rest

/-- The words of a text, in order. -/
def ofText (text : String) : List String := (scan [] [] text.toList).map String.ofList

end ContentChunks.Words
