/-
Locations: which asset, as the row of names that leads to it from a base
directory. A checked location stays below its base.
-/
import ContentChunks.Error

namespace ContentChunks

/-- An asset's place below a base directory, name by name. -/
structure Location where
  segments : List String
deriving DecidableEq, Repr

namespace Location

/-- Whether a name neither means another directory nor holds a separator. -/
def plain (segment : String) : Bool :=
  segment != "" && segment != "." && segment != ".." &&
    segment.toList.all fun c => c != '/' && c != '\\' && c.toNat != 0

/-- The location with the given names, if there is one and all are plain. -/
def ofSegments (segments : List String) : Except Error Location :=
  if segments = [] then .error (.invalidSegment "")
  else match segments.find? fun s => !plain s with
    | some bad => .error (.invalidSegment bad)
    | none => .ok ⟨segments⟩

/-- The name of the asset itself. -/
def name (l : Location) : String := l.segments.getLast?.getD ""

/-- The names with slashes between them. -/
def display (l : Location) : String := String.intercalate "/" l.segments

/-- The path of the asset under `base`. -/
def toPath (l : Location) (base : Path) : Path := base.extend (l.segments.map Bytes.ofText)

/-- Locations are ordered name by name. -/
instance : Ord Location where
  compare a b := compare a.segments b.segments

theorem ofSegments_eq_ok_iff {segments : List String} {l : Location} :
    ofSegments segments = .ok l ↔
      l = ⟨segments⟩ ∧ segments ≠ [] ∧ ∀ s ∈ segments, plain s = true := by
  unfold ofSegments
  split
  · simp_all
  · split
    · rename_i bad h
      have := List.find?_some h
      have := List.mem_of_find?_eq_some h
      simp_all
      grind
    · simp_all [List.find?_eq_none]
      grind

end Location

end ContentChunks
