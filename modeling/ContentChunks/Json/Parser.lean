/-
Reading JSON values. A text is one value with blanks around it; what follows
the value is refused.
-/
import ContentChunks.Hex
import ContentChunks.Json

namespace ContentChunks.Json

/-- Whether a character may stand between the parts of a value. -/
def blank (c : Char) : Bool := c == ' ' || c == '\n' || c == '\t' || c == '\r'

/-- What is left after blanks. -/
def skip (cs : List Char) : List Char := cs.dropWhile blank

/-! ## Strings -/

/-- The units of the escapes that have a letter of their own. -/
def letterUnit? (c : Char) : Option Nat :=
  [('"', 0x22), ('\\', 0x5C), ('/', 0x2F), ('b', 0x08), ('f', 0x0C), ('n', 0x0A), ('r', 0x0D),
    ('t', 0x09)].lookup c

/-- The unit that four hexadecimal digits write. -/
def unit? (a b c d : Char) : Option Nat := do
  return 4096 * (← Hex.value? a) + 256 * (← Hex.value? b) + 16 * (← Hex.value? c) + (← Hex.value? d)

/-- Reads the marks up to the closing quotation mark. -/
def text? : List Char → Option (Text × List Char)
  | [] => none
  | '"' :: rest => some ([], rest)
  | '\\' :: 'u' :: a :: b :: c :: d :: rest => do
    let unit ← unit? a b c d
    let (text, rest) ← text? rest
    return (.escaped unit :: text, rest)
  | '\\' :: letter :: rest => do
    let unit ← letterUnit? letter
    let (text, rest) ← text? rest
    return (.escaped unit :: text, rest)
  | '\\' :: [] => none
  | c :: rest => do
    let (text, rest) ← text? rest
    return (.char c :: text, rest)

/-! ## Numbers -/

/-- The decimal digits at the front, and what follows them. -/
def digits (cs : List Char) : List Char × List Char := cs.span Char.isDigit

def natOf (ds : List Char) : Nat := ds.foldl (fun n d => 10 * n + (d.toNat - '0'.toNat)) 0

/-- What follows a fraction, if there is one; a point without digits is refused. -/
def skipFraction : List Char → Option (List Char)
  | '.' :: rest => match digits rest with
    | ([], _) => none
    | (_ :: _, rest) => some rest
  | rest => some rest

/-- What follows the sign of an exponent, if it has one. -/
def skipSign : List Char → List Char
  | '+' :: rest => rest
  | '-' :: rest => rest
  | rest => rest

/-- What follows an exponent, if there is one; one without digits is refused. -/
def skipExponent : List Char → Option (List Char)
  | 'e' :: rest | 'E' :: rest => match digits (skipSign rest) with
    | ([], _) => none
    | (_ :: _, rest) => some rest
  | rest => some rest

/-- Whether a fraction or an exponent begins here. -/
def goesOn : List Char → Bool
  | c :: _ => c == '.' || c == 'e' || c == 'E'
  | [] => false

/-- Reads a number after its sign; one that starts with a zero has no other digit before the point. -/
def unsigned? (cs : List Char) : Option (Json × List Char) :=
  match digits cs with
  | ([], _) => none
  | ('0' :: _ :: _, _) => none
  | (ds, rest) => do
    let rest' ← skipExponent (← skipFraction rest)
    return (if goesOn rest then .otherNumber else .number (natOf ds), rest')

def number? : List Char → Option (Json × List Char)
  | '-' :: rest => (unsigned? rest).map fun (_, rest) => (.otherNumber, rest)
  | cs => unsigned? cs

/-! ## Values -/

mutual

def value? : Nat → List Char → Option (Json × List Char)
  | 0, _ => none
  | fuel + 1, cs =>
    match skip cs with
    | 'n' :: 'u' :: 'l' :: 'l' :: rest => some (.null, rest)
    | 't' :: 'r' :: 'u' :: 'e' :: rest => some (.bool true, rest)
    | 'f' :: 'a' :: 'l' :: 's' :: 'e' :: rest => some (.bool false, rest)
    | '"' :: rest => (text? rest).map fun (text, rest) => (.string text, rest)
    | '[' :: rest =>
      match skip rest with
      | ']' :: rest => some (.array [], rest)
      | rest => (items? fuel rest).map fun (items, rest) => (.array items, rest)
    | '\x7b' :: rest =>
      match skip rest with
      | '\x7d' :: rest => some (.object [], rest)
      | rest => (members? fuel rest).map fun (members, rest) => (.object members, rest)
    | cs => number? cs

/-- Reads the items up to the end of an array. -/
def items? : Nat → List Char → Option (List Json × List Char)
  | 0, _ => none
  | fuel + 1, cs => do
    let (item, rest) ← value? fuel cs
    match skip rest with
    | ',' :: rest => do
      let (items, rest) ← items? fuel rest
      return (item :: items, rest)
    | ']' :: rest => return ([item], rest)
    | _ => none

/-- Reads the members up to the end of an object. -/
def members? : Nat → List Char → Option (List (Text × Json) × List Char)
  | 0, _ => none
  | fuel + 1, cs =>
    match skip cs with
    | '"' :: rest => do
      let (key, rest) ← text? rest
      match skip rest with
      | ':' :: rest => do
        let (value, rest) ← value? fuel rest
        match skip rest with
        | ',' :: rest => do
          let (members, rest) ← members? fuel rest
          return ((key, value) :: members, rest)
        | '\x7d' :: rest => return ([(key, value)], rest)
        | _ => none
      | _ => none
    | _ => none

end

/-- The value of a text. Each step takes a character or goes to a part, so
twice the length is fuel enough. -/
def parse? (s : String) : Option Json :=
  match value? (2 * s.toList.length + 2) s.toList with
  | some (j, rest) => if skip rest = [] then some j else none
  | none => none

end ContentChunks.Json
