/-
Locations and their bases. A path has a location under a base just if what it
leads to is below what the base leads to, under names that are texts without a
backslash; links and two dots on the way to either make no difference. And the
path of a location under whatever base is the base and one component for each name.

Main statements:
- `Location.plain_iff`: which names a location may have.
- `Location.resolve_below`, `Location.resolve_outside`: what the location of a path is, or why there is none.
- `Location.components_injective`, `Location.display_injective`: what tells locations apart.
- `Location.resolve_iff_below`: when a path has a location under a base, and which.
-/
import ContentChunks.Proofs.Unchecked

namespace ContentChunks

open ContentChunks.Path (IsName)

/-! ## Paths of places -/

theorem Place.path_eq_extend {place : Place} (isName : ∀ n ∈ place, IsName n) :
    place.path = (⟨[slash]⟩ : Path).extend place := by
  by_cases given : place = []
  · rw [given]
    rfl
  · rw [Path.extend_eq_push_join _ given isName, Path.push, if_neg (Path.head?_join isName), if_pos (.inr rfl)]
    rfl

theorem Place.extend_path {place : Place} {names : List Bytes} (isName : ∀ n ∈ place ++ names, IsName n) :
    place.path.extend names = Place.path (place ++ names) := by
  rw [Place.path_eq_extend isName, Place.path_eq_extend fun n hn => isName n (List.mem_append_left _ hn),
    Path.extend_append]

namespace FileSystem

/-- Whether no name of an entry has a zero byte in it, as none may have. -/
def Named (fs : FileSystem) : Prop := ∀ e ∈ fs.nodes, ∀ name ∈ e.1, 0 ∉ name

theorem Named.noZero {fs : FileSystem} (named : fs.Named) {place : Place} (there : fs.node? place ≠ none) :
    ∀ name ∈ place, 0 ∉ name := by
  by_cases root : place = []
  · simp [root]
  · rw [node?_of_ne_nil root] at there
    obtain ⟨node, found⟩ := Option.ne_none_iff_exists'.1 there
    obtain ⟨before, after, same, -⟩ := List.lookup_eq_some_iff.1 found
    exact named (place, node) (by simp [same])

end FileSystem

namespace Location

variable {fs : FileSystem} {p base : Path} {place top : Place} {names : List Bytes} {l : Location}

/-! ## Segments -/

/-- **A location may have a name** if it is an ordinary one without a backslash or a zero byte. -/
theorem plain_iff {segment : String} :
    plain segment = true ↔
      IsName (Bytes.ofText segment) ∧ '\\' ∉ segment.toList ∧ 0 ∉ Bytes.ofText segment := by
  constructor
  · intro isPlain
    refine ⟨isName_of_plain isPlain, fun backslash => ?_, zero_not_mem_of_plain isPlain⟩
    simp only [plain, Bool.and_eq_true, List.all_eq_true, bne_iff_ne] at isPlain
    exact (isPlain.2 _ backslash).1.2 rfl
  · intro h
    obtain ⟨isName, backslash, noZero⟩ := h
    obtain ⟨filled, notHere, notUp, whole⟩ := isName_iff.1 isName
    simp only [plain, Bool.and_eq_true, List.all_eq_true, bne_iff_ne]
    refine ⟨⟨⟨filled, notHere⟩, notUp⟩, fun c mem => ⟨⟨?_, ?_⟩, fun zero => ?_⟩⟩
    · exact fun same => whole (same ▸ mem)
    · exact fun same => backslash (same ▸ mem)
    · obtain rfl : c = Char.ofNat 0 := by rw [← Char.ofNat_toNat c, zero]
      exact noZero ((Utf8.mem_ofText_iff (by decide) (by decide)).2 mem)

theorem segmentOf_ofText (segment : String) : segmentOf (Bytes.ofText segment) = .ok segment := by
  rw [segmentOf, Utf8.text?_ofText]

theorem mapM_segmentOf_eq_ok {segments : List String} :
    names.mapM segmentOf = .ok segments ↔ segments.map Bytes.ofText = names := by
  constructor
  · exact map_of_mapM_eq_ok fun _ _ => segmentOf_eq_ok
  · rintro rfl
    induction segments with
    | nil => rfl
    | cons segment segments ih =>
      rw [List.map_cons, List.mapM_cons, segmentOf_ofText, ih]
      rfl

theorem mapM_segmentOf_ne_outside (a b : Path) : names.mapM segmentOf ≠ .error (.outsideBase a b) := by
  induction names with
  | nil => simp [pure, Except.pure]
  | cons name names ih =>
    intro outside
    rw [List.mapM_cons] at outside
    cases first : segmentOf name with
    | error e =>
      rw [first] at outside
      obtain rfl : e = .outsideBase a b := Except.error.inj outside
      unfold segmentOf at first
      split at first <;> cases first
    | ok segment =>
      rw [first] at outside
      cases rest : names.mapM segmentOf with
      | error e =>
        rw [rest] at outside
        obtain rfl : e = .outsideBase a b := Except.error.inj outside
        exact ih rest
      | ok segments =>
        rw [rest] at outside
        cases outside

theorem ofSegments_ne_outside (segments : List String) (a b : Path) :
    ofSegments segments ≠ .error (.outsideBase a b) := by
  unfold ofSegments
  split
  · simp
  · split <;> simp

/-! ## Making a location -/

section Canonical

variable (knownBase : fs.canonical base = .ok top)
include knownBase

/-- What is below the base has the location that its names make, if they make one. -/
theorem resolve_below (known : fs.canonical p = .ok (top ++ names)) (given : names ≠ []) :
    resolve fs p base = names.mapM segmentOf >>= ofSegments := by
  have within : top.isPrefixOf (top ++ names) = true := List.isPrefixOf_iff_prefix.2 (List.prefix_append _ _)
  rw [resolve, known, knownBase]
  simp only [Except.mapError, bind, Except.bind, within, Bool.not_true, Bool.false_eq_true, if_false, List.drop_left]
  cases named : names.mapM segmentOf with
  | error e => rfl
  | ok segments =>
    obtain rfl := mapM_segmentOf_eq_ok.1 named
    simp [by simpa using given]

theorem resolve_below_eq_ok_iff (known : fs.canonical p = .ok (top ++ names)) (given : names ≠ []) :
    resolve fs p base = .ok l ↔ l.segments.map Bytes.ofText = names ∧ ∀ s ∈ l.segments, plain s = true := by
  rw [resolve_below knownBase known given, bind_eq_ok]
  constructor
  · intro made
    obtain ⟨segments, isNames, ok⟩ := made
    obtain ⟨rfl, -, isPlain⟩ := ofSegments_eq_ok_iff.1 ok
    exact ⟨mapM_segmentOf_eq_ok.1 isNames, isPlain⟩
  · intro h
    obtain ⟨rfl, isPlain⟩ := h
    exact ⟨l.segments, mapM_segmentOf_eq_ok.2 rfl, ofSegments_eq_ok_iff.2 ⟨rfl, by simpa using given, isPlain⟩⟩

theorem resolve_below_ne_outside (known : fs.canonical p = .ok (top ++ names)) (given : names ≠ []) (a b : Path) :
    resolve fs p base ≠ .error (.outsideBase a b) := by
  intro outside
  rw [resolve_below knownBase known given] at outside
  cases isNames : names.mapM segmentOf with
  | error e =>
    rw [isNames] at outside
    obtain rfl : e = .outsideBase a b := Except.error.inj outside
    exact mapM_segmentOf_ne_outside a b isNames
  | ok segments =>
    rw [isNames] at outside
    exact ofSegments_ne_outside segments a b outside

/-- What is not below the base has none. -/
theorem resolve_outside (known : fs.canonical p = .ok place) (outside : ¬∃ names, names ≠ [] ∧ place = top ++ names) :
    resolve fs p base = .error (.outsideBase place.path top.path) := by
  rw [resolve, known, knownBase]
  simp only [Except.mapError, bind, Except.bind]
  by_cases within : top.isPrefixOf place = true
  · obtain ⟨rest, rfl⟩ := List.isPrefixOf_iff_prefix.1 within
    have nothing : rest = [] := by
      by_contra given
      exact outside ⟨rest, given, rfl⟩
    rw [nothing, List.append_nil, List.drop_length]
    simp [pure, Except.pure, throw, throwThe, MonadExceptOf.throw]
  · rw [Bool.not_eq_true] at within
    rw [within]
    rfl

end Canonical

/-- Whether a name is a text without a backslash. -/
def Spelled (name : Bytes) : Prop := ∃ segment : String, Bytes.ofText segment = name ∧ '\\' ∉ segment.toList

theorem exists_segments (spelled : ∀ name ∈ names, Spelled name) :
    ∃ segments : List String, segments.map Bytes.ofText = names ∧ ∀ s ∈ segments, '\\' ∉ s.toList := by
  induction names with
  | nil => exact ⟨[], rfl, by simp⟩
  | cons name names ih =>
    obtain ⟨segment, rfl, backslash⟩ := spelled name List.mem_cons_self
    obtain ⟨segments, rfl, backslashes⟩ := ih fun n hn => spelled n (List.mem_cons_of_mem _ hn)
    exact ⟨segment :: segments, rfl, List.forall_mem_cons.2 ⟨backslash, backslashes⟩⟩

/-- When a path that leads to one place has a location under a base that leads to another. -/
structure Resolves (fs : FileSystem) (p base : Path) (place top : Place) : Prop where
  /-- It has one if the place is below the base, under names that are texts without a backslash. -/
  made : (∃ l, resolve fs p base = .ok l) ↔ ∃ names, names ≠ [] ∧ place = top ++ names ∧ ∀ name ∈ names, Spelled name
  /-- The location has those names. -/
  segments : ∀ l, resolve fs p base = .ok l → place = top ++ l.segments.map Bytes.ofText
  /-- Its path under the base is that of the place. -/
  back : ∀ l, resolve fs p base = .ok l → l.toPath top.path = place.path
  /-- Only what is not below the base is said to be outside. -/
  outside : (∃ a b, resolve fs p base = .error (.outsideBase a b)) ↔ ¬∃ names, names ≠ [] ∧ place = top ++ names

theorem resolves_of_canonical (known : fs.canonical p = .ok place) (knownBase : fs.canonical base = .ok top)
    (named : fs.Named) : Resolves fs p base place top := by
  obtain ⟨settled, there⟩ := FileSystem.settled_of_canonical known
  have noZero := named.noZero there
  by_cases below : ∃ names, names ≠ [] ∧ place = top ++ names
  · obtain ⟨names, given, rfl⟩ := below
    have resolved {l : Location} := resolve_below_eq_ok_iff (l := l) knownBase known given
    refine ⟨⟨fun made => ?_, fun below => ?_⟩, fun l ok => ?_, fun l ok => ?_, ?_⟩
    · obtain ⟨l, ok⟩ := made
      obtain ⟨rfl, isPlain⟩ := resolved.1 ok
      refine ⟨_, given, rfl, fun name hname => ?_⟩
      obtain ⟨segment, hsegment, rfl⟩ := List.mem_map.1 hname
      exact ⟨segment, rfl, (plain_iff.1 (isPlain segment hsegment)).2.1⟩
    · obtain ⟨others, -, same, spelled⟩ := below
      obtain rfl := List.append_cancel_left same
      obtain ⟨segments, rfl, backslash⟩ := exists_segments spelled
      refine ⟨⟨segments⟩, resolved.2 ⟨rfl, fun s hs => ?_⟩⟩
      have mem : Bytes.ofText s ∈ top ++ segments.map Bytes.ofText := List.mem_append_right _ (List.mem_map_of_mem hs)
      exact plain_iff.2 ⟨settled.isName _ mem, backslash s hs, noZero _ mem⟩
    · rw [(resolved.1 ok).1]
    · rw [toPath, (resolved.1 ok).1, Place.extend_path settled.isName]
    · refine iff_of_false (fun refused => ?_) (not_not.2 ⟨names, given, rfl⟩)
      obtain ⟨a, b, outside⟩ := refused
      exact resolve_below_ne_outside knownBase known given a b outside
  · have outside := resolve_outside knownBase known below
    have refused (l : Location) : resolve fs p base ≠ .ok l := by
      rw [outside]
      simp
    refine ⟨iff_of_false (not_exists.2 refused) fun spelled => ?_, fun l ok => absurd ok (refused l),
      fun l ok => absurd ok (refused l), iff_of_true ⟨_, _, outside⟩ below⟩
    obtain ⟨names, given, same, -⟩ := spelled
    exact below ⟨names, given, same⟩

/-! ## What tells locations apart -/

theorem ofText_display (l : Location) : Bytes.ofText l.display = Path.join (l.segments.map Bytes.ofText) := by
  unfold display
  induction l.segments with
  | nil => rfl
  | cons segment segments ih =>
    cases segments with
    | nil => simp [Bytes.ofText, Path.join]
    | cons second segments =>
      have spelled : ("/".toList).flatMap String.utf8EncodeChar = [slash] := by decide
      simp only [Bytes.ofText, Path.join, String.toList_intercalate, List.map_cons, List.intercalate_cons_cons,
        List.flatMap_append, spelled] at ih ⊢
      rw [ih]

section Checked

variable {segments others : List String} {other : Location} (checked : ofSegments segments = .ok l)
include checked

/-- **The path of a location** is the base and one component for each segment. -/
theorem components_toPath (root : Path) : (l.toPath root).components =
    root.components ++ segments.map fun s => .name (Bytes.ofText s) := by
  obtain ⟨rfl, -, isPlain⟩ := ofSegments_eq_ok_iff.1 checked
  exact components_toPath_iff ⟨segments⟩ |>.2 (fun s hs => isName_iff.1 (isName_of_plain (isPlain s hs))) root

variable (checkedOther : ofSegments others = .ok other)
include checkedOther

theorem components_injective (root : Path) (same : (l.toPath root).components = (other.toPath root).components) :
    l = other := by
  rw [components_toPath checked, components_toPath checkedOther] at same
  have written : Function.Injective fun s => Path.Component.name (Bytes.ofText s) := fun s t h =>
    Utf8.ofText_injective (Path.Component.name.inj h)
  obtain rfl := written.list_map (List.append_cancel_left same)
  exact Except.ok.inj (checked.symm.trans checkedOther)

theorem display_injective (same : l.display = other.display) : l = other := by
  obtain ⟨rfl, given, isPlain⟩ := ofSegments_eq_ok_iff.1 checked
  obtain ⟨rfl, givenOther, isPlainOther⟩ := ofSegments_eq_ok_iff.1 checkedOther
  have pieces {names : List String} (given : names ≠ []) (isPlain : ∀ s ∈ names, plain s = true) :
      Path.split (Path.join (names.map Bytes.ofText)) = names.map Bytes.ofText := by
    refine Path.split_join (by simpa using given) fun piece mem => ?_
    obtain ⟨s, hs, rfl⟩ := List.mem_map.1 mem
    exact (isName_of_plain (isPlain s hs)).whole
  have texts := congrArg Bytes.ofText same
  rw [ofText_display, ofText_display] at texts
  have names := congrArg Path.split texts
  rw [pieces given isPlain, pieces givenOther isPlainOther] at names
  exact congrArg mk (Utf8.ofText_injective.list_map names)

end Checked

/-- **When a path has a location under a base.** Let path and base lead to places, through
whatever links. There is a location just if the one is strictly below the other, under names
that are texts without a backslash; it has those names, and its path under the place of the
base is the place of the path. Only what is not strictly below is outside. And whatever
segments a location is made of, its path under any base is the base and one component for
each segment, and other locations have other paths and other texts. -/
theorem resolve_iff_below (known : fs.canonical p = .ok place) (knownBase : fs.canonical base = .ok top)
    (named : fs.Named) :
    Resolves fs p base place top ∧
    (∀ segments l, ofSegments segments = .ok l → segments ≠ [] ∧ ∀ root : Path,
      (l.toPath root).components = root.components ++ segments.map fun s => .name (Bytes.ofText s)) ∧
    ∀ segments others l other, ofSegments segments = .ok l → ofSegments others = .ok other → l ≠ other →
      (∀ root : Path, (l.toPath root).components ≠ (other.toPath root).components) ∧ l.display ≠ other.display := by
  refine ⟨resolves_of_canonical known knownBase named, fun segments l checked => ?_,
    fun segments others l other checked checkedOther differ => ?_⟩
  · exact ⟨(ofSegments_eq_ok_iff.1 checked).2.1, components_toPath checked⟩
  · exact ⟨fun root same => differ (components_injective checked checkedOther root same),
      fun same => differ (display_injective checked checkedOther same)⟩

/-- A path and a base that go through a link and back. -/
theorem resolve_iff_below_linked :
    let fs : FileSystem := ⟨[([Bytes.ofText "b"], .directory), ([Bytes.ofText "b", Bytes.ofText "d"], .directory),
      ([Bytes.ofText "b", Bytes.ofText "d", Bytes.ofText "f"], .file 0),
      ([Bytes.ofText "l"], .link (Path.ofText "b/d"))], [[]]⟩
    let base := Path.ofText "/l/.."
    let p := Path.ofText "/l/f"
    fs.canonical p = .ok [Bytes.ofText "b", Bytes.ofText "d", Bytes.ofText "f"] ∧
      fs.canonical base = .ok [Bytes.ofText "b"] ∧ fs.Named ∧
      resolve fs p base = .ok ⟨["d", "f"]⟩ ∧
      Resolves fs p base [Bytes.ofText "b", Bytes.ofText "d", Bytes.ofText "f"] [Bytes.ofText "b"] := by
  intro fs base p
  have known : fs.canonical p = .ok [Bytes.ofText "b", Bytes.ofText "d", Bytes.ofText "f"] := by decide +kernel
  have knownBase : fs.canonical base = .ok [Bytes.ofText "b"] := by decide +kernel
  have named : fs.Named := by
    unfold FileSystem.Named
    decide +kernel
  exact ⟨known, knownBase, named, by decide +kernel, (resolve_iff_below known knownBase named).1⟩

end Location

end ContentChunks
