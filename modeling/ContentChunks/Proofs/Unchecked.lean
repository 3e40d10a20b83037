/-
Locations and signatures that come from JSON. A location that is made of its
segments stays below its base, and a signature that is made of a digest has
the digest's right length; reading one from JSON asks for neither, so each of
them, right or wrong, is what some text reads as.

Main statements:
- `Location.isName_iff`: which segments are one component each.
- `Location.inside_of_names`: what is read at names under a base depends on nothing outside it.
- `Location.confined_iff`: the locations that keep to their base are those that are made of their segments.
- `read?_unchecked`: every location and every signature is what some text reads as.
-/
import ContentChunks.Asset
import ContentChunks.Proofs.Forms
import ContentChunks.Proofs.Resolving
import ContentChunks.Signature.Checked

namespace ContentChunks

open ContentChunks.Path (IsName)

/-! ## Segments -/

/-- **A segment is one component** of a path unless it is empty, a dot or two, or holds a slash. -/
theorem Location.isName_iff {segment : String} :
    IsName (Bytes.ofText segment) ↔ segment ≠ "" ∧ segment ≠ "." ∧ segment ≠ ".." ∧ '/' ∉ segment.toList := by
  have same (other : String) : Bytes.ofText segment = Bytes.ofText other ↔ segment = other :=
    Utf8.ofText_injective.eq_iff
  have slashes : slash ∈ Bytes.ofText segment ↔ '/' ∈ segment.toList :=
    Utf8.mem_ofText_iff (by decide) (by decide)
  constructor
  · intro ⟨filled, whole, notHere, notUp⟩
    exact ⟨mt (same "").2 filled, mt (same ".").2 notHere, mt (same "..").2 notUp, mt slashes.2 whole⟩
  · intro ⟨filled, notHere, notUp, whole⟩
    exact ⟨mt (same "").1 filled, mt slashes.1 whole, mt (same ".").1 notHere, mt (same "..").1 notUp⟩

theorem Location.isName_of_plain {segment : String} (plain : Location.plain segment = true) :
    IsName (Bytes.ofText segment) := by
  simp only [Location.plain, Bool.and_eq_true, bne_iff_ne, List.all_eq_true] at plain
  obtain ⟨⟨⟨filled, notHere⟩, notUp⟩, characters⟩ := plain
  refine Location.isName_iff.2 ⟨filled, notHere, notUp, fun slash => ?_⟩
  exact (characters '/' slash).1.1 rfl

/-! ## Reading below a base -/

namespace FileSystem

variable {fs other : FileSystem} {base : Path} {place : Place} {names : List Bytes}

/-- Whether two file systems are the same below a place. -/
structure SameBelow (fs other : FileSystem) (place : Place) : Prop where
  node : ∀ names, names ≠ [] → other.node? (place ++ names) = fs.node? (place ++ names)
  content : ∀ names number, fs.node? (place ++ names) = some (.file number) →
    other.content number = fs.content number

theorem SameBelow.agree (same : fs.SameBelow other place) (names : List Bytes) : fs.Agree other place names :=
  fun init _ given => same.node init given

theorem openAt_eq (p : Path) : fs.openAt p = match fs.locate .reach p with
    | .error fault => .error fault
    | .ok (.missing _ _) => .error .notFound
    | .ok (.found there) => match fs.node? there with
      | some (.file number) => .ok (.file number)
      | some .directory => .ok .directory
      | _ => .error .notFound := by
  unfold openAt reach placeFor
  cases fs.locate .reach p with
  | error fault => rfl
  | ok destination => cases destination <;> rfl

/-- What names after the path of a directory open is the same, and so is what there is to read. -/
theorem DirectoryAt.open_congr (h : fs.DirectoryAt base place) (h' : other.DirectoryAt base place)
    (solid : fs.Solid place) (same : fs.SameBelow other place) (isName : ∀ n ∈ names, IsName n) (given : names ≠ []) :
    other.openAt (base.extend names) = fs.openAt (base.extend names) ∧
      ∀ opened, fs.openAt (base.extend names) = .ok opened → other.reader opened = fs.reader opened := by
  rw [openAt_eq, openAt_eq, h.locate_congr h' solid (.inr rfl) isName given (same.agree names)]
  cases found : fs.locate .reach (base.extend names) with
  | error fault => exact ⟨rfl, fun _ opens => by cases opens⟩
  | ok destination =>
    cases destination with
    | missing directory name => exact ⟨rfl, fun _ opens => by cases opens⟩
    | found there =>
      obtain ⟨rfl, -⟩ := h.place_of_locate solid (.inr rfl) isName given found
      dsimp only
      rw [same.node names given]
      refine ⟨rfl, fun opened opens => ?_⟩
      split at opens
      next number file =>
        cases opens
        rw [reader, reader, data, data, script, script, same.content names number file]
      next => cases opens; rfl
      next => cases opens

end FileSystem

/-- Whether what is read at a location under a base depends on nothing but what is below the
base: it is the same in any two file systems that are the same there. -/
def Location.Inside (l : Location) : Prop :=
  ∀ (c : Chunk) (fs other : FileSystem) (base : Path) (place : Place), c.location = l →
    fs.DirectoryAt base place → other.DirectoryAt base place → fs.Solid place → fs.SameBelow other place →
    c.read other base = c.read fs base

theorem Location.inside_of_names {l : Location} (given : l.segments ≠ [])
    (isName : ∀ s ∈ l.segments, IsName (Bytes.ofText s)) : l.Inside := by
  intro c fs other base place located h h' solid same
  have names : ∀ n ∈ l.segments.map Bytes.ofText, IsName n := by simpa using isName
  have ⟨opens, reads⟩ := h.open_congr h' solid same names (by simpa using given)
  rw [← Location.toPath] at opens reads
  rw [Chunk.read, Chunk.read, located, FileSystem.openAsset, FileSystem.openAsset, opens]
  cases opened : fs.openAt (l.toPath base) with
  | error fault => rfl
  | ok what =>
    show (c.readFrom (other.reader what)).1.mapError _ = (c.readFrom (fs.reader what)).1.mapError _
    rw [reads what opened]

/-- Whether a location keeps to whatever base it is taken under. -/
structure Location.Confined (l : Location) : Prop where
  /-- It is made of its segments. -/
  checked : Location.ofSegments l.segments = .ok l
  /-- Its path consists of the base and then its segments, each one component. -/
  components : ∀ base : Path, (l.toPath base).components =
    base.components ++ l.segments.map fun s => .name (Bytes.ofText s)
  inside : l.Inside

theorem Location.components_toPath_iff (l : Location) :
    (∀ base : Path, (l.toPath base).components = base.components ++ l.segments.map fun s => .name (Bytes.ofText s)) ↔
      ∀ s ∈ l.segments, s ≠ "" ∧ s ≠ "." ∧ s ≠ ".." ∧ '/' ∉ s.toList := by
  have components := Path.components_extend_iff (l.segments.map Bytes.ofText)
  simpa [Location.toPath, Location.isName_iff, Function.comp_def] using components

/-- **A location keeps to its base** if its segments are checked. -/
theorem Location.confined_iff (l : Location) :
    l.Confined ↔ l.segments ≠ [] ∧ ∀ s ∈ l.segments, Location.plain s = true := by
  constructor
  · intro confined
    exact (Location.ofSegments_eq_ok_iff.1 confined.checked).2
  · intro ⟨given, plain⟩
    have isName := fun s hs => Location.isName_of_plain (plain s hs)
    exact ⟨Location.ofSegments_eq_ok_iff.2 ⟨rfl, given, plain⟩,
      l.components_toPath_iff.2 fun s hs => Location.isName_iff.1 (isName s hs), Location.inside_of_names given isName⟩

/-! ## Reading from JSON -/

/-- **Reading from JSON asks for nothing.** Whatever the location and whatever the signature,
some text reads as it. But a location keeps to its base only if it has segments and all of them
are plain, and its path consists of base and segments only if each of these is one component;
and a signature is made of its digest only if that has the algorithm's length. -/
theorem read?_unchecked (l : Location) (s : Signature) :
    ((∃ text, Form.read? text = some l) ∧
      (l.Confined ↔ l.segments ≠ [] ∧ ∀ segment ∈ l.segments, Location.plain segment = true) ∧
      ((∀ base : Path, (l.toPath base).components =
          base.components ++ l.segments.map fun segment => .name (Bytes.ofText segment)) ↔
        ∀ segment ∈ l.segments, segment ≠ "" ∧ segment ≠ "." ∧ segment ≠ ".." ∧ '/' ∉ segment.toList)) ∧
    (∃ text, Form.read? text = some s) ∧ (Signature.ofDigest s.algorithm s.digest = .ok s ↔ s.Sized) := by
  refine ⟨⟨⟨_, l.kept.read?_write⟩, l.confined_iff, l.components_toPath_iff⟩, ⟨_, s.kept.read?_write⟩, ?_⟩
  rw [Signature.ofDigest_eq_ok_iff, and_iff_right rfl]

/-- Two dots and a name are read as a location, though no location is made of them, and the
chunk there is the content of a file beside the base; a digest of three bytes is read as a
signature, though none has so few. -/
theorem read?_unchecked_beside :
    Form.read? "\x7b\"segments\":[\"..\",\"secret\"]\x7d" = some (Location.mk ["..", "secret"]) ∧
    Location.ofSegments ["..", "secret"] = .error (.invalidSegment "..") ∧
    Chunk.read ⟨[([Bytes.ofText "base"], .directory), ([Bytes.ofText "secret"], .file 0)], [Bytes.ofText "key"]⟩
      ⟨⟨["..", "secret"]⟩, .bytes 0 3, ⟨.sha256, []⟩⟩ (Path.ofText "/base") = .ok (Bytes.ofText "key") ∧
    Form.read? "\x7b\"algorithm\":\"sha256\",\"digest\":[1,2,3]\x7d" = some (Signature.mk .sha256 [1, 2, 3]) ∧
    Signature.ofDigest .sha256 [1, 2, 3] = .error (.invalidDigest .sha256 32 3) := by
  decide +kernel

end ContentChunks
