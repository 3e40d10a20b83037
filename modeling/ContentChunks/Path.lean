/-
File paths. A path is a byte string in which slashes separate names; what it
means is its row of components, in which repeated and trailing slashes and
inner dots have vanished.
-/
import ContentChunks.Utf8

namespace ContentChunks

/-- The byte that separates names. -/
def slash : UInt8 := 0x2F

def dot : UInt8 := 0x2E

/-- A path as it was given. -/
structure Path where
  bytes : Bytes
deriving DecidableEq, Repr

namespace Path

/-- A step of a path. -/
inductive Component where
  /-- The leading slash. -/
  | root
  /-- A leading dot. -/
  | here
  /-- Two dots. -/
  | up
  | name (bytes : Bytes)
deriving DecidableEq, Repr

/-- The pieces between the slashes, empty ones too. -/
def split : Bytes → List Bytes
  | [] => [[]]
  | b :: rest =>
    if b = slash then [] :: split rest
    else match split rest with
      | [] => [[b]]
      | piece :: pieces => (b :: piece) :: pieces

/-- What a piece stands for; an empty piece and a dot stand for nothing. -/
def component? (piece : Bytes) : Option Component :=
  if piece = [] ∨ piece = [dot] then none
  else if piece = [dot, dot] then some .up
  else some (.name piece)

/-- The components of a path: a leading slash and a leading dot are components. -/
def components (p : Path) : List Component :=
  if p.bytes.head? = some slash then .root :: (split p.bytes).filterMap component?
  else if (split p.bytes).head? = some [dot] then .here :: (split p.bytes).filterMap component?
  else (split p.bytes).filterMap component?

/-- The path as text, a replacement character for each ill-formed piece. -/
def text (p : Path) : String := Utf8.lossy p.bytes

def ofText (s : String) : Path := ⟨Bytes.ofText s⟩

def isAbsolute (p : Path) : Bool := p.bytes.head? == some slash

/-- Appends a path; an absolute one takes the place of what it is appended to. -/
def push (p : Path) (q : Bytes) : Path :=
  if q.head? = some slash then ⟨q⟩
  else if p.bytes = [] ∨ p.bytes.getLast? = some slash then ⟨p.bytes ++ q⟩
  else ⟨p.bytes ++ slash :: q⟩

/-- Appends one name after the other. -/
def extend (p : Path) (names : List Bytes) : Path := names.foldl push p

/-- How a component is written. -/
def Component.bytes : Component → Bytes
  | root => [slash]
  | here => [dot]
  | up => [dot, dot]
  | name n => n

/-- The plain path with the given components. -/
def ofComponents (cs : List Component) : Path := extend ⟨[]⟩ (cs.map Component.bytes)

/-- Whether a piece stands for nothing. -/
def idle (piece : Bytes) : Bool := (component? piece).isNone

/-- Pieces with slashes between them. -/
def join (pieces : List Bytes) : Bytes := [slash].intercalate pieces

/-- The path of pieces, the last of them first, without those at its end that
stand for nothing; if none is left, the path has only what it starts with. -/
def backTo (start : List Component) (pieces : List Bytes) : Path :=
  match pieces.dropWhile idle with
  | [] => ofComponents start
  | pieces => ⟨join pieces.reverse⟩

/-- The path without its last component, as it was given up to there; the root
and the empty path have none. -/
def parent? (p : Path) : Option Path :=
  match p.components.reverse with
  | [] | [.root] => none
  | _ :: above => some (backTo above.reverse ((split p.bytes).reverse.dropWhile idle).tail)

/-- The path and the paths of the directories above it, the nearest first; the
empty path is not one of them. -/
def upwards (p : Path) : List Path :=
  if p.bytes = [] then []
  else p :: (List.range (p.components.length - 1)).reverse.map fun n => ofComponents (p.components.take (n + 1))

/-! ## Relative paths -/

/-- The pieces after the first `count` that stand for something. -/
def dropSteps : Nat → List Bytes → List Bytes
  | 0, pieces => pieces
  | _ + 1, [] => []
  | count + 1, piece :: rest => if idle piece then dropSteps (count + 1) rest else dropSteps count rest

/-- Whether a component is written as a piece that stands for something. -/
def Component.isStep : Component → Bool
  | root => false
  | here => false
  | _ => true

/-- What is left of a path after `base`, if it starts with the components of
`base`: its text, but for slashes and dots at either end. -/
def relative? (base p : Path) : Option Path :=
  if base.components.isPrefixOf p.components then
    let rest := dropSteps (base.components.filter Component.isStep).length (split p.bytes)
    some ⟨join ((rest.dropWhile idle).reverse.dropWhile idle).reverse⟩
  else none

end Path

end ContentChunks
