/-
Changing a file system. Each change is made as a whole or refused, and a
refused one changes nothing. What is done in several steps may be refused at
any of them: by what stands in the file system, or by the disk it is on.
-/
import ContentChunks.FileSystem.Walk

namespace ContentChunks

/-- The path without slashes at its end. -/
def Path.bare (p : Path) : Path := ⟨(p.bytes.reverse.dropWhile (· == slash)).reverse⟩

/-- Whether slashes at the end say that a path is a directory's. -/
def Path.endsOpen (p : Path) : Bool := p.bytes.getLast? == some slash

namespace FileSystem

/-- The entry of a directory that a path names, with or without slashes at its end. -/
def entry (fs : FileSystem) (p : Path) : Except OsFault Destination :=
  match checkPath .look p with
  | .error fault => .error fault
  | .ok () => fs.locate .look (if p.bare.bytes = [] then p else p.bare)

/-- Makes a directory where nothing is yet. -/
def makeDirectory (fs : FileSystem) (p : Path) : Except OsFault FileSystem := do
  match ← fs.entry p with
  | .found _ => throw .alreadyExists
  | .missing directory name => return fs.put (directory ++ [name]) .directory

/-- Makes a directory, unless the path leads to one. -/
def ensureDirectory (fs : FileSystem) (p : Path) : Except OsFault FileSystem :=
  match fs.makeDirectory p with
  | .ok fs => .ok fs
  | .error fault => if fs.isDirectory p then .ok fs else .error fault

/-- Makes an empty file where nothing is yet. -/
def makeFile (fs : FileSystem) (p : Path) : Except OsFault FileSystem := do
  match ← fs.locate .look p with
  | .found _ => throw .alreadyExists
  | .missing directory name => return fs.putFile (directory ++ [name]) []

/-- The number of the content of the file that a path leads to. -/
def fileNumber (fs : FileSystem) (p : Path) : Except OsFault Nat := do
  match fs.node? (← fs.reach p) with
  | some (.file number) => return number
  | some .directory => throw .isDirectory
  | _ => throw .notFound

/-- The content of the file that a path leads to. -/
def contentAt (fs : FileSystem) (p : Path) : Except OsFault Bytes := do
  return fs.content (← fs.fileNumber p)

/-- Gives a file new content; a missing file is made. -/
def overwrite (fs : FileSystem) (p : Path) (content : Bytes) : Except OsFault FileSystem := do
  match ← fs.locate .file p with
  | .missing directory name => return fs.putFile (directory ++ [name]) content
  | .found _ => return fs.setContent (← fs.fileNumber p) content

def append (fs : FileSystem) (p : Path) (bytes : Bytes) : Except OsFault FileSystem := do
  let number ← fs.fileNumber p
  return fs.setContent number (fs.content number ++ bytes)

/-- Makes a link where nothing is yet. -/
def makeLink (fs : FileSystem) (p target : Path) : Except OsFault FileSystem := do
  if p.bytes.contains 0 then throw .zeroByte
  checkPath .look target
  match ← fs.entry p with
  | .found _ => throw .alreadyExists
  | .missing directory name =>
    if p.endsOpen then throw .notFound else return fs.put (directory ++ [name]) (.link target)

def unlink (fs : FileSystem) (p : Path) : Except OsFault FileSystem := do
  match ← fs.entry p with
  | .missing .. => throw .notFound
  | .found place =>
    if fs.node? place = some .directory then throw .isDirectory
    else if p.endsOpen then throw .notDirectory
    else return fs.drop place

/-- Removes an empty directory; its path has to end with its name. -/
def removeDirectory (fs : FileSystem) (p : Path) : Except OsFault FileSystem := do
  match ← fs.entry p with
  | .missing .. => throw .notFound
  | .found place =>
    let last := (Path.split p.bare.bytes).getLast?
    if last = some [dot] then throw .invalidArgument
    else if last = some [dot, dot] ∨ fs.below place ≠ [] then throw .notEmpty
    else if fs.node? place ≠ some .directory then throw .notDirectory
    else return fs.drop place

def clear (fs : FileSystem) (place : Place) : FileSystem :=
  { fs with nodes := fs.nodes.filter fun e => !place.isPrefixOf e.1 || e.1 == place }

/-- Removes what stands at a path; of a directory first what is below it. -/
def removeTree (fs : FileSystem) (p : Path) : Except OsFault Unit × FileSystem :=
  match fs.locate .look p with
  | .error fault => (.error fault, fs)
  | .ok (.missing ..) => (.error .notFound, fs)
  | .ok (.found place) =>
    if fs.node? place = some .directory then
      match (fs.clear place).removeDirectory p with
      | .ok fs => (.ok (), fs)
      | .error .notFound => (.ok (), fs.clear place)
      | .error fault => (.error fault, fs.clear place)
    else match fs.unlink p with
      | .ok fs => (.ok (), fs)
      | .error fault => (.error fault, fs)

/-- Moves a file or a link, in place of any file or link at the new path. -/
def move (fs : FileSystem) (source target : Path) : Except OsFault FileSystem := do
  match ← fs.locate .look source with
  | .missing .. => throw .notFound
  | .found place =>
    match fs.node? place with
    | none => throw .notFound
    | some .directory => throw .isDirectory
    | some node =>
      match ← fs.locate .look target with
      | .missing directory name => return (fs.drop place).put (directory ++ [name]) node
      | .found old =>
        if fs.node? old = some .directory then throw .isDirectory else return (fs.drop place).put old node

/-- The directories to make, the topmost first, so that a path may lead to one:
the first is the lowest whose making does not wait for another. -/
def directoriesToMake (fs : FileSystem) : List Path → List Path
  | [] => []
  | p :: above =>
    match fs.makeDirectory p with
    | .error .notFound => fs.directoriesToMake above ++ [p]
    | _ => [p]

/-! ## Steps -/

/-- One change, as it is seen from outside. -/
inductive Step where
  | ensureDirectory (p : Path)
  | makeFile (p : Path)
  | append (p : Path) (bytes : Bytes)
  /-- Waits until a file that is open is on the disk. -/
  | sync (p : Path)
  | move (source target : Path)
  /-- Opens a directory and waits until its entries are on the disk. -/
  | syncDirectory (p : Path)
deriving DecidableEq, Repr

def step (fs : FileSystem) : Step → Except OsFault FileSystem
  | .ensureDirectory p => fs.ensureDirectory p
  | .makeFile p => fs.makeFile p
  | .append p bytes => fs.append p bytes
  | .sync _ => .ok fs
  | .move source target => fs.move source target
  | .syncDirectory p => (fs.reach p).map fun _ => fs

/-- How a disk goes about the steps that it is given, whatever stands in the file system. -/
structure Disk where
  /-- The pieces in which bytes are written. -/
  pieces : Bytes → List Bytes
  flatten_pieces : ∀ bytes, (pieces bytes).flatten = bytes
  /-- Why a step is refused that comes after so many others, though it could be taken. -/
  refusal : (taken : Nat) → Step → Option OsFault

/-- All bytes are written at once, no step is refused. -/
def Disk.plain : Disk := ⟨fun bytes => [bytes], fun bytes => by simp, fun _ _ => none⟩

/-- Takes steps up to the first that is refused, after so many others. -/
def stepsOn (disk : Disk) (taken : Nat) (fs : FileSystem) : List Step → Except OsFault Unit × FileSystem
  | [] => (.ok (), fs)
  | s :: rest =>
    match disk.refusal taken s with
    | some fault => (.error fault, fs)
    | none =>
      match fs.step s with
      | .ok fs => fs.stepsOn disk (taken + 1) rest
      | .error fault => (.error fault, fs)

/-- Takes steps up to the first that cannot be taken. -/
def steps (fs : FileSystem) (all : List Step) : Except OsFault Unit × FileSystem := fs.stepsOn .plain 0 all

/-- Where no step is refused it does not matter how many were taken. -/
theorem stepsOn_plain (taken : Nat) (fs : FileSystem) (all : List Step) : fs.stepsOn .plain taken all = fs.steps all := by
  rw [steps]
  generalize 0 = other
  induction all generalizing taken other fs with
  | nil => rfl
  | cons s rest ih =>
    simp only [stepsOn, Disk.plain]
    cases fs.step s with
    | error fault => rfl
    | ok next => exact ih _ next _

theorem steps_nil (fs : FileSystem) : fs.steps [] = (.ok (), fs) := rfl

theorem steps_cons (fs : FileSystem) (s : Step) (rest : List Step) :
    fs.steps (s :: rest) =
      match fs.step s with
      | .ok fs => fs.steps rest
      | .error fault => (.error fault, fs) := by
  simp only [steps, stepsOn, Disk.plain]
  cases fs.step s with
  | error fault => rfl
  | ok next => exact stepsOn_plain 1 next rest

/-- The steps that make a directory and those above it. -/
def directorySteps (fs : FileSystem) (p : Path) : List Step :=
  (fs.directoriesToMake p.upwards).map .ensureDirectory

/-- Makes a directory and those above it. -/
def makeDirectories (fs : FileSystem) (p : Path) : Except OsFault Unit × FileSystem :=
  fs.steps (fs.directorySteps p)

end FileSystem

end ContentChunks
