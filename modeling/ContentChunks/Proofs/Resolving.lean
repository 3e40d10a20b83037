/-
Locations lead back to their files. Path and base are followed to their ends
when a location is made, through links and two dots; what is kept of them are
the names between, and those lead from the base to the same file.

Main statements:
- `Arrives.settled`: what a path leads to stands below directories only, under ordinary names.
- `Location.resolve_eq_ok`: what a location is made of.
- `Location.contentAt_toPath`: the path of a location under its base gets at the file that it was made for.
-/
import ContentChunks.Location.Resolve
import ContentChunks.Proofs.Growing
import ContentChunks.Proofs.Utf8

namespace ContentChunks

namespace FileSystem

open ContentChunks.Path (IsName)

variable {fs : FileSystem} {links : Nat} {here place : Place} {piece : Bytes} {pieces : List Bytes} {p : Path}

/-! ## Where things stand -/

/-- Whether a place is below directories only, each under an ordinary name. -/
structure Settled (fs : FileSystem) (place : Place) : Prop where
  above : ∀ init, init <+: place → init ≠ place → fs.node? init = some .directory
  isName : ∀ name ∈ place, IsName name
  brief : ∀ name ∈ place, name.length ≤ nameLimit

theorem settled_root (fs : FileSystem) : fs.Settled [] :=
  ⟨fun _ within other => absurd (List.prefix_nil.1 within) other, by simp, by simp⟩

theorem Settled.push (settled : fs.Settled here) (node : fs.node? here = some .directory) (isName : IsName piece)
    (brief : piece.length ≤ nameLimit) : fs.Settled (here ++ [piece]) := by
  refine ⟨fun init within other => ?_, ?_, ?_⟩
  · have within := (List.prefix_concat_iff.1 within).resolve_left other
    by_cases same : init = here
    · rw [same, node]
    · exact settled.above init within same
  · simpa [or_imp, forall_and] using ⟨settled.isName, isName⟩
  · simpa [or_imp, forall_and] using ⟨settled.brief, brief⟩

theorem Settled.dropLast (settled : fs.Settled here) (node : fs.node? here = some .directory) :
    fs.Settled here.dropLast ∧ fs.node? here.dropLast = some .directory := by
  have within := List.dropLast_prefix here
  by_cases same : here.dropLast = here
  · rw [same]
    exact ⟨settled, node⟩
  · refine ⟨⟨fun init hinit _ => settled.above init (hinit.trans within) ?_, ?_, ?_⟩, settled.above _ within same⟩
    · rintro rfl
      exact same (within.eq_of_length_le hinit.length_le)
    · exact fun name hname => settled.isName name (within.subset hname)
    · exact fun name hname => settled.brief name (within.subset hname)

theorem isName_of_followed (awake : Path.idle piece = false) (notUp : piece ≠ [dot, dot]) (whole : slash ∉ piece) :
    IsName piece := by
  have filled : ¬(piece = [] ∨ piece = [dot]) := by
    rw [← Path.idle_iff]
    simp [awake]
  obtain ⟨filled, notHere⟩ := not_or.1 filled
  exact ⟨filled, whole, notHere, notUp⟩

/-- **What is found stands below directories only**, whatever links led there, and is there. -/
theorem Arrives.settled (arrives : Arrives fs links here pieces place) (settled : fs.Settled here)
    (node : fs.node? here = some .directory) (whole : ∀ piece ∈ pieces, slash ∉ piece) :
    fs.Settled place ∧ fs.node? place ≠ none := by
  induction arrives with
  | arrived => exact ⟨settled, by simp [node]⟩
  | idle _ _ ih => exact ih settled node fun piece hp => whole piece (by simp [hp])
  | up _ ih =>
    obtain ⟨settled, node⟩ := settled.dropLast node
    exact ih settled node fun piece hp => whole piece (by simp [hp])
  | enter awake notUp short entered _ ih =>
    have isName := isName_of_followed awake notUp (whole _ (by simp))
    exact ih (settled.push node isName short) entered fun piece hp => whole piece (by simp [hp])
  | file awake notUp short file =>
    exact ⟨settled.push node (isName_of_followed awake notUp (whole _ (by simp))) short, by simp [file]⟩
  | @link _ here _ _ pieces target _ _ _ _ _ ih =>
    have onward : ∀ piece ∈ Path.split target.bytes ++ pieces, slash ∉ piece := by
      intro piece hp
      rcases List.mem_append.1 hp with hp | hp
      · exact Path.whole_of_mem_split hp
      · exact whole piece (by simp [hp])
    by_cases absolute : target.isAbsolute = true
    · simp only [absolute, if_true] at ih
      exact ih (settled_root fs) rfl onward
    · simp only [absolute, Bool.false_eq_true, if_false] at ih
      exact ih settled node onward

theorem arrives_of_canonical (known : fs.canonical p = .ok place) :
    p.bytes ≠ [] ∧ 0 ∉ p.bytes ∧ Arrives fs linkLimit [] (Path.split p.bytes) place := by
  unfold canonical placeFor locate checkPath at known
  by_cases zero : p.bytes.contains 0 = true
  · rw [if_pos zero] at known
    cases known
  by_cases empty : p.bytes = []
  · rw [if_neg zero, if_pos empty] at known
    cases known
  rw [if_neg zero, if_neg empty, if_neg (by simp)] at known
  have walked : fs.walk .place linkLimit [] (Path.split p.bytes) = .ok (.found place) := by
    dsimp only at known
    split at known
    · cases known
    · cases known
    · cases known
      assumption
  exact ⟨empty, by simpa using zero, arrives_of_walk (by decide) walked⟩

theorem settled_of_canonical (known : fs.canonical p = .ok place) : fs.Settled place ∧ fs.node? place ≠ none := by
  obtain ⟨-, -, arrives⟩ := arrives_of_canonical known
  exact arrives.settled (settled_root fs) rfl fun piece hp => Path.whole_of_mem_split hp

theorem reach_eq_of_canonical {there : Place} (known : fs.canonical p = .ok place) (reached : fs.reach p = .ok there) :
    there = place := by
  obtain ⟨-, -, arrives⟩ := arrives_of_canonical known
  have walked := (reach_iff.1 reached).2
  rw [arrives.walk] at walked
  cases walked
  rfl

theorem directoryAt_of_canonical (known : fs.canonical p = .ok place) (node : fs.node? place = some .directory)
    (short : p.bytes.length ≤ pathLimit) : fs.DirectoryAt p place := by
  obtain ⟨given, noZero, arrives⟩ := arrives_of_canonical known
  exact (arrives.leads node).directoryAt ⟨given, noZero, short⟩

theorem walk_asleep {purpose : Purpose} (asleep : ∀ piece ∈ pieces, Path.idle piece = true) :
    fs.walk purpose links here pieces = .ok (.found here) := by
  induction pieces with
  | nil => simp [walk, stretch]
  | cons piece pieces ih => rw [walk_idle (asleep piece (by simp)), ih fun p hp => asleep p (by simp [hp])]

theorem canonical_slashes (fs : FileSystem) {n : Nat} (pos : 0 < n) :
    fs.canonical ⟨List.replicate n slash⟩ = .ok [] := by
  have asleep : ∀ piece ∈ Path.split (List.replicate n slash), Path.idle piece = true := by
    simpa [Path.busy] using busy_split_slashes n
  have noZero : ¬(List.replicate n slash).contains 0 = true := by
    rw [List.contains_iff_mem]
    exact fun zero => absurd (List.eq_of_mem_replicate zero) (by decide)
  have filled : List.replicate n slash ≠ [] := by simpa using Nat.ne_of_gt pos
  unfold canonical placeFor locate checkPath
  rw [if_neg noZero, if_neg filled, if_neg (by simp)]
  simp only [walk_asleep asleep]

end FileSystem

/-! ## Locations -/

open FileSystem (Usable pathLimit)

variable {fs : FileSystem} {p base : Path} {location : Location}

theorem segmentOf_eq_ok {name : Bytes} {segment : String} (h : segmentOf name = .ok segment) :
    Bytes.ofText segment = name := by
  unfold segmentOf at h
  split at h
  · rename_i read
    cases h
    exact Utf8.ofText_of_text? read
  · cases h

theorem Location.zero_not_mem_of_plain {segment : String} (plain : Location.plain segment = true) :
    0 ∉ Bytes.ofText segment := by
  intro zero
  obtain ⟨c, hc, mem⟩ := List.mem_flatMap.1 zero
  have noZero : ∀ c ∈ segment.toList, c.toNat ≠ 0 := by
    simp only [Location.plain, Bool.and_eq_true, List.all_eq_true, bne_iff_ne] at plain
    exact fun c hc => (plain.2 c hc).2
  exact noZero c hc (Utf8.toNat_of_mem_encode mem (by decide))

/-- **What a location is made of**: base and path lead to places, and the
location has the names from the one to the other. -/
theorem Location.resolve_eq_ok (resolved : Location.resolve fs p base = .ok location) :
    ∃ top names, fs.canonical base = .ok top ∧ fs.canonical p = .ok (top ++ names) ∧ names ≠ [] ∧
      location.segments.map Bytes.ofText = names ∧ ∀ name ∈ names, 0 ∉ name := by
  obtain ⟨place, atPath, resolved⟩ := bind_eq_ok.1 resolved
  obtain ⟨top, atBase, resolved⟩ := bind_eq_ok.1 resolved
  rw [mapError_eq_ok] at atPath atBase
  by_cases within : top.isPrefixOf place = true
  · rw [within] at resolved
    obtain ⟨segments, named, resolved⟩ := bind_eq_ok.1 resolved
    by_cases empty : segments = []
    · rw [if_pos empty] at resolved
      cases resolved
    rw [if_neg empty] at resolved
    obtain ⟨rfl, -, plain⟩ := Location.ofSegments_eq_ok_iff.1 resolved
    have names := map_of_mapM_eq_ok (fun _ _ => segmentOf_eq_ok) named
    obtain ⟨rest, rfl⟩ := List.isPrefixOf_iff_prefix.1 within
    rw [List.drop_left] at names
    refine ⟨top, rest, atBase, atPath, ?_, names, ?_⟩
    · rintro rfl
      exact empty (List.map_eq_nil_iff.1 names)
    · rw [← names]
      intro name hname
      obtain ⟨segment, hsegment, rfl⟩ := List.mem_map.1 hname
      exact Location.zero_not_mem_of_plain (plain segment hsegment)
  · rw [Bool.not_eq_true] at within
    rw [within] at resolved
    cases resolved

/-- **A location leads back.** The path of a location under its base gets at the
file that the location was made for, unless it is too long. -/
theorem Location.contentAt_toPath {content : Bytes} (resolved : Location.resolve fs p base = .ok location)
    (short : (location.toPath base).bytes.length ≤ pathLimit) (found : fs.contentAt p = .ok content) :
    fs.contentAt (location.toPath base) = .ok content := by
  obtain ⟨top, names, atBase, atPath, given, segments, noZero⟩ := Location.resolve_eq_ok resolved
  obtain ⟨place, number, reached, node, rfl⟩ := FileSystem.contentAt_eq_ok.1 found
  obtain rfl := FileSystem.reach_eq_of_canonical atPath reached
  have settled := (FileSystem.settled_of_canonical atPath).1
  have usable : ∀ name ∈ names, Usable name := by
    intro name hname
    have mem : name ∈ top ++ names := List.mem_append_right top hname
    exact ⟨settled.isName name mem, noZero name hname, settled.brief name mem⟩
  have whole : ∀ name ∈ names, slash ∉ name := fun name hname => (usable name hname).whole
  rw [Location.toPath, segments] at short ⊢
  have shortBase : base.bytes.length ≤ pathLimit := Nat.le_trans (Path.length_le_extend whole) short
  have atTop := settled.above top (List.prefix_append top names) (by simpa using given)
  have directory := FileSystem.directoryAt_of_canonical atBase atTop shortBase
  obtain ⟨front, last, rfl⟩ := (List.eq_nil_or_concat names).resolve_left given
  rw [List.concat_eq_append] at *
  rw [Path.extend_concat] at short ⊢
  have usableFront : ∀ name ∈ front, Usable name := fun name hname => usable name (by simp [hname])
  have usableLast : Usable last := usable last (by simp)
  have shortFront : (base.extend front).bytes.length ≤ pathLimit :=
    Nat.le_trans (Path.length_le_push usableLast.whole) short
  have spine : fs.Spine top front := by
    intro init within filled
    refine settled.above (top ++ init) ?_ ?_
    · exact List.prefix_append_right_inj top |>.2 (within.trans (List.prefix_append front [last]))
    · intro same
      have lengths := congrArg List.length (List.append_cancel_left same)
      have := within.length_le
      simp at lengths
      omega
  rw [← List.append_assoc] at node
  exact (directory.extend usableFront shortFront spine).contentAt_file usableLast short node

end ContentChunks
