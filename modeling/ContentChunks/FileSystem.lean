/-
File systems: directories, files and links, each at the row of names that
leads to it from the root. The content of a file is kept apart from its place,
under a number, so that whoever has the file open reads on when it is renamed
or removed.
-/
import ContentChunks.Error

namespace ContentChunks

/-- What stands at a place. -/
inductive Node where
  | directory
  /-- A file; its content has the number. -/
  | file (number : Nat)
  | link (target : Path)
deriving DecidableEq, Repr

/-- A place: the names that lead to it from the root. -/
abbrev Place := List Bytes

/-- Directories, files and links. -/
structure FileSystem where
  /-- What stands where; the root is not listed. -/
  nodes : List (Place × Node)
  /-- The contents of files, by number. -/
  contents : List Bytes
deriving Repr

def Place.path (place : Place) : Path := ⟨slash :: Path.join place⟩

namespace FileSystem

def empty : FileSystem := ⟨[], []⟩

/-- What stands at a place. -/
def node? (fs : FileSystem) (place : Place) : Option Node :=
  if place = [] then some .directory else fs.nodes.lookup place

def content (fs : FileSystem) (number : Nat) : Bytes := (fs.contents[number]?).getD []

def put (fs : FileSystem) (place : Place) (node : Node) : FileSystem :=
  { fs with nodes := fs.nodes.filter (fun e => e.1 != place) ++ [(place, node)] }

def drop (fs : FileSystem) (place : Place) : FileSystem :=
  { fs with nodes := fs.nodes.filter fun e => e.1 != place }

/-- Puts a new file with the given content at a place. -/
def putFile (fs : FileSystem) (place : Place) (content : Bytes) : FileSystem :=
  { fs.put place (.file fs.contents.length) with contents := fs.contents ++ [content] }

def setContent (fs : FileSystem) (number : Nat) (content : Bytes) : FileSystem :=
  { fs with contents := fs.contents.set number content }

/-- What stands below a place, each with the names that lead to it from there. -/
def below (fs : FileSystem) (place : Place) : List (Place × Node) :=
  fs.nodes.filterMap fun (p, node) =>
    if place.isPrefixOf p && p.length != place.length then some (p.drop place.length, node) else none

/-- The names of the entries of a directory, once for each thing at the entry or below it. -/
def namesBelow (fs : FileSystem) (place : Place) : List Bytes :=
  (fs.below place).filterMap fun (names, _) => names.head?

end FileSystem

end ContentChunks
