/-
Open files as readers. Whoever has a file open reads what is in it at the
time; a directory can be opened too, but not read. No reader goes past the
greatest offset there is, unless a file is longer.
-/
import ContentChunks.FileSystem.Change
import ContentChunks.Reader

namespace ContentChunks

/-- What was opened. -/
inductive Opened where
  | file (number : Nat)
  | directory
deriving DecidableEq, Repr

/-- The greatest offset in a file. -/
def offsetMax : Nat := 0x7FFFFFFFFFFFFFFF

/-- How a file with so many bytes answers. -/
def Script.ofFile (length : Nat) : Script where
  interruptions _ := 0
  reply _ position wanted :=
    if length < position ∧ offsetMax < position + wanted then .fail (.os .invalidArgument) else .upTo wanted
  refusal _ target := if length < target ∧ offsetMax < target then some (.os .invalidArgument) else none

/-- How a directory answers. -/
def Script.ofDirectory : Script :=
  { Script.ofFile 0 with reply := fun _ _ _ => .fail (.os .isDirectory) }

namespace FileSystem

/-- Opens what a path leads to. -/
def openAt (fs : FileSystem) (p : Path) : Except OsFault Opened := do
  match fs.node? (← fs.reach p) with
  | some (.file number) => return .file number
  | some .directory => return .directory
  | _ => throw .notFound

/-- What there is to read now. -/
def data (fs : FileSystem) : Opened → Bytes
  | .file number => fs.content number
  | .directory => []

/-- How what was opened answers now. -/
def script (fs : FileSystem) : Opened → Script
  | .file number => .ofFile (fs.content number).length
  | .directory => .ofDirectory

/-- A reader of what was opened. -/
def reader (fs : FileSystem) (opened : Opened) : Reader := .of (fs.data opened) (fs.script opened)

end FileSystem

end ContentChunks
