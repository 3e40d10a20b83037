/-
Following paths. A path is followed name by name from the root; links on the
way are followed, and no more than forty. What is done with a link at the end,
with slashes after the last name, and with paths that are long, depends on what
the path is wanted for.
-/
import ContentChunks.FileSystem

namespace ContentChunks

/-- Where a path leads. -/
inductive Destination where
  | found (place : Place)
  /-- Nothing has the last name in the directory that the path leads to. -/
  | missing (directory : Place) (name : Bytes)
deriving DecidableEq, Repr

/-- What a path is wanted for. -/
inductive Purpose where
  /-- To see what is there; a link at the end is what is found. -/
  | look
  /-- To get at what is there; a link at the end is followed. -/
  | reach
  /-- To have a file there, made if need be: a link at the end is followed, and
  slashes after the last name are refused, since only a directory has them. -/
  | file
  /-- To know the place that it leads to; a link at the end is followed. The path
  may be of any length, but each place on the way is looked at by its own path. -/
  | place
deriving DecidableEq, Repr

/-- How far a path leads without following a link. -/
inductive Stretch where
  | done (destination : Destination)
  /-- To a link in a directory, with pieces still to go. -/
  | link (directory : Place) (target : Path) (rest : List Bytes)
deriving DecidableEq, Repr

namespace FileSystem

def nameLimit : Nat := 255

def pathLimit : Nat := 4095

/-- The name that pieces lead to next; no bytes if they stay or lead up. -/
def nextName : List Bytes → Bytes
  | [] => []
  | piece :: rest =>
    if piece = [] ∨ piece = [dot] then nextName rest else if piece = [dot, dot] then [] else piece

/-- Whether the path of a place, with a slash and a name after it, is too long. -/
def tooDeep (place : Place) (name : Bytes) : Bool := pathLimit < place.path.bytes.length + 1 + name.length

/-- Follows pieces from a directory up to a link. -/
def stretch (fs : FileSystem) (purpose : Purpose) : Place → List Bytes → Except OsFault Stretch
  | here, [] => .ok (.done (.found here))
  | here, piece :: rest =>
    if piece = [] ∨ piece = [dot] then fs.stretch purpose here rest
    else if piece = [dot, dot] then fs.stretch purpose here.dropLast rest
    else if purpose = .file ∧ rest ≠ [] ∧ rest.all (· = []) then .error .isDirectory
    else if nameLimit < piece.length ∨ purpose = .place ∧ pathLimit < (Place.path (here ++ [piece])).bytes.length then
      .error .nameTooLong
    else match fs.node? (here ++ [piece]) with
      | none => if rest = [] then .ok (.done (.missing here piece)) else .error .notFound
      | some .directory => fs.stretch purpose (here ++ [piece]) rest
      | some (.file _) =>
        if rest = [] then .ok (.done (.found (here ++ [piece])))
        else if purpose = .place ∧ tooDeep (here ++ [piece]) (nextName rest) then .error .nameTooLong
        else .error .notDirectory
      | some (.link target) =>
        if rest = [] ∧ purpose = .look then .ok (.done (.found (here ++ [piece])))
        else .ok (.link here target rest)

/-- Follows pieces from a directory, and so many links at most. -/
def walk (fs : FileSystem) (purpose : Purpose) : Nat → Place → List Bytes → Except OsFault Destination
  | links, start, pieces =>
    match fs.stretch purpose start pieces with
    | .error fault => .error fault
    | .ok (.done destination) => .ok destination
    | .ok (.link directory target rest) =>
      match links with
      | 0 => .error .tooManyLinks
      | links + 1 =>
        fs.walk purpose links (if target.isAbsolute then [] else directory) (Path.split target.bytes ++ rest)

/-- How many links a path may lead through. -/
def linkLimit : Nat := 40

/-- Refuses what cannot be a path: no bytes, too many, or a zero byte. -/
def checkPath (purpose : Purpose) (p : Path) : Except OsFault Unit :=
  if p.bytes.contains 0 then .error .zeroByte
  else if p.bytes = [] then .error .notFound
  else if purpose ≠ .place ∧ pathLimit < p.bytes.length then .error .nameTooLong
  else .ok ()

/-- Where a path leads. -/
def locate (fs : FileSystem) (purpose : Purpose) (p : Path) : Except OsFault Destination :=
  match checkPath purpose p with
  | .error fault => .error fault
  | .ok () => fs.walk purpose linkLimit [] (Path.split p.bytes)

/-- The place that a path leads to, if something is there. -/
def placeFor (fs : FileSystem) (purpose : Purpose) (p : Path) : Except OsFault Place :=
  match fs.locate purpose p with
  | .error fault => .error fault
  | .ok (.missing ..) => .error .notFound
  | .ok (.found place) => .ok place

/-- The place where a path gets at something. -/
def reach (fs : FileSystem) (p : Path) : Except OsFault Place := fs.placeFor .reach p

/-- The place that a path of any length leads to, if something is there. -/
def canonical (fs : FileSystem) (p : Path) : Except OsFault Place := fs.placeFor .place p

/-- What a path leads to. -/
def nodeAt? (fs : FileSystem) (p : Path) : Option Node :=
  match fs.reach p with
  | .error _ => none
  | .ok place => fs.node? place

def isFile (fs : FileSystem) (p : Path) : Bool :=
  match fs.nodeAt? p with
  | some (.file _) => true
  | _ => false

def isDirectory (fs : FileSystem) (p : Path) : Bool := fs.nodeAt? p == some .directory

end FileSystem

end ContentChunks
