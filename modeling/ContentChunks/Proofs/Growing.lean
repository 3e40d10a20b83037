/-
File systems that only grow: what is in one stays at its place with its
content, whatever is added elsewhere.

Main statements:
- `Grows.reach`, `Grows.contentAt`: paths lead where they led, and files keep what is in them.
- `grows_makeDirectories`: making directories adds to a file system and changes nothing in it.
-/
import ContentChunks.Proofs.Changing

namespace ContentChunks.FileSystem

variable {fs other : FileSystem} {purpose : Purpose} {links : Nat} {here place : Place} {pieces : List Bytes}
  {p : Path}

/-! ## Paths -/

theorem Arrives.grows (grows : fs.Grows other) (arrives : Arrives fs links here pieces place) :
    Arrives other links here pieces place := by
  induction arrives with
  | arrived => exact .arrived
  | idle asleep _ ih => exact .idle asleep ih
  | up _ ih => exact .up ih
  | enter awake notUp short node _ ih => exact .enter awake notUp short (grows.nodes _ _ node) ih
  | file awake notUp short node => exact .file awake notUp short (grows.nodes _ _ node)
  | link awake notUp short node _ ih => exact .link awake notUp short (grows.nodes _ _ node) ih

theorem Grows.reach (grows : fs.Grows other) (reached : fs.reach p = .ok place) : other.reach p = .ok place := by
  obtain ⟨sound, walked⟩ := reach_iff.1 reached
  exact reach_iff.2 ⟨sound, ((arrives_of_walk (by decide) walked).grows grows).walk⟩

theorem contentAt_eq_ok {content : Bytes} : fs.contentAt p = .ok content ↔
    ∃ place number, fs.reach p = .ok place ∧ fs.node? place = some (.file number) ∧ fs.content number = content := by
  constructor
  · intro h
    obtain ⟨number, found, same⟩ := bind_eq_ok.1 h
    obtain ⟨place, reached, atPlace⟩ := bind_eq_ok.1 found
    split at atPlace
    · rename_i node
      cases atPlace
      cases same
      exact ⟨place, number, reached, node, rfl⟩
    · cases atPlace
    · cases atPlace
  · rintro ⟨place, number, reached, node, rfl⟩
    rw [contentAt, fileNumber, reached]
    simp only [bind, Except.bind, node]
    rfl

theorem Grows.content (grows : fs.Grows other) {number : Nat} (filled : fs.content number ≠ []) :
    other.content number = fs.content number := by
  obtain ⟨more, same⟩ := grows.contents
  have within : number < fs.contents.length := by
    by_contra beyond
    exact filled (by rw [FileSystem.content, List.getElem?_eq_none (by omega), Option.getD_none])
  rw [FileSystem.content, FileSystem.content, ← same, List.getElem?_append_left within]

/-- A file keeps what is in it. -/
theorem Grows.contentAt (grows : fs.Grows other) {content : Bytes} (found : fs.contentAt p = .ok content)
    (filled : content ≠ []) : other.contentAt p = .ok content := by
  obtain ⟨place, number, reached, node, rfl⟩ := contentAt_eq_ok.1 found
  exact contentAt_eq_ok.2 ⟨place, number, grows.reach reached, grows.nodes _ _ node, grows.content filled⟩

/-! ## Making directories -/

theorem free_of_stretch {directory : Place} {name : Bytes}
    (missing : fs.stretch purpose here pieces = .ok (.done (.missing directory name))) :
    fs.node? (directory ++ [name]) = none := by
  fun_induction stretch fs purpose here pieces <;> grind

theorem free_of_walk {directory : Place} {name : Bytes}
    (missing : fs.walk purpose links here pieces = .ok (.missing directory name)) :
    fs.node? (directory ++ [name]) = none := by
  fun_induction walk fs purpose links here pieces with
  | case1 => cases missing
  | case2 links here pieces destination stretched =>
    cases missing
    exact free_of_stretch stretched
  | case3 => cases missing
  | case4 here pieces directory target rest links stretched ih => exact ih missing

theorem free_of_entry {directory : Place} {name : Bytes} (missing : fs.entry p = .ok (.missing directory name)) :
    fs.node? (directory ++ [name]) = none := by
  unfold entry locate at missing
  split at missing
  · cases missing
  · split at missing
    · cases missing
    · exact free_of_walk missing

theorem grows_makeDirectory (made : fs.makeDirectory p = .ok other) : fs.Grows other := by
  obtain ⟨destination, found, put⟩ := bind_eq_ok.1 made
  cases destination with
  | found there => cases put
  | missing directory name =>
    cases put
    exact grows_put (by simp) (free_of_entry found)

theorem grows_ensureDirectory (made : fs.ensureDirectory p = .ok other) : fs.Grows other := by
  unfold ensureDirectory at made
  split at made
  · rename_i put
    cases made
    exact grows_makeDirectory put
  · split at made
    · cases made
      exact .refl fs
    · cases made

theorem grows_makeDirectories (p : Path) : fs.Grows (fs.makeDirectories p).2 := by
  have row (paths : List Path) (fs : FileSystem) : fs.Grows (fs.steps (paths.map .ensureDirectory)).2 := by
    induction paths generalizing fs with
    | nil => exact .refl fs
    | cons p paths ih =>
      rw [List.map_cons, steps_cons]
      cases made : fs.step (.ensureDirectory p) with
      | error fault => exact .refl fs
      | ok next => exact (grows_ensureDirectory made).trans (ih next)
  exact row _ fs

theorem Grown.grows {names : List Bytes} (grown : Grown place names fs other) : fs.Grows other := by
  induction grown with
  | same => exact .refl fs
  | made _ _ _ free ih => exact ih.trans (grows_put (by simp) free)

end ContentChunks.FileSystem
