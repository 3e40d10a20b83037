/-
What is seen below a directory by one who reads it and each directory below it,
each by its path. A directory whose path is too long cannot be read, and what is
below it is not seen.
-/
import ContentChunks.FileSystem.Walk

namespace ContentChunks.FileSystem

/-- Whether a directory is too far below a path to be read. -/
def outOfReach (p : Path) (names : Place) : Bool := pathLimit < (p.push (Path.join names)).bytes.length

/-- What is seen below a path, each with the names that lead to it from there; a
fault stands in place of a directory that cannot be read. -/
def seenBelow (fs : FileSystem) (p : Path) : Except OsFault (List (Place × Except OsFault Node)) := do
  let place ← fs.reach p
  return (fs.below place).filterMap fun (names, node) =>
    if names.length ≠ 1 ∧ outOfReach p names.dropLast then none
    else if node = .directory ∧ outOfReach p names then some (names, .error .nameTooLong)
    else some (names, .ok node)

end ContentChunks.FileSystem
