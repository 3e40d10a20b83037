/-
Changes of a file system, told by what stands where afterwards.

Main statements:
- `node?_put`, `node?_drop`, `mem_below_iff`: what stands where after a change.
- `Grows`: what a file system with more in it has in common with one with less.
- `DirectoryAt.makeDirectory_free`, `DirectoryAt.makeFile_free`, `DirectoryAt.unlink_file`,
  `DirectoryAt.move_file`: what a change of an entry of a directory does.
- `DirectoryAt.write`: a file is written under another name and moved to its place.
- `DirectoryAt.makeDirectories`: a row of directories is made, as far as there is none.
- `stepsOn_long`, `DirectoryAt.write_long`: what is done where a path is too long.
-/
import ContentChunks.FileSystem.Change
import ContentChunks.Proofs.Walking
import Mathlib.Data.List.Nodup

namespace ContentChunks.FileSystem

open ContentChunks.Path (IsName)

variable {fs : FileSystem} {place other : Place} {names : List Bytes} {node : Node}

/-! ## What stands where -/

theorem node?_of_ne_nil (h : place ≠ []) : fs.node? place = fs.nodes.lookup place := by
  rw [node?, if_neg h]

theorem lookup_filter_self (nodes : List (Place × Node)) (place : Place) :
    (nodes.filter fun e => e.1 != place).lookup place = none := by
  refine List.lookup_eq_none_iff.2 fun e he => ?_
  have other : e.1 ≠ place := by simpa using (List.mem_filter.1 he).2
  simpa using other.symm

theorem lookup_filter_of_ne (nodes : List (Place × Node)) {place other : Place} (h : other ≠ place) :
    (nodes.filter fun e => e.1 != place).lookup other = nodes.lookup other := by
  induction nodes with
  | nil => rfl
  | cons e nodes ih =>
    by_cases same : e.1 = place
    · have : (other == e.1) = false := by simpa [same] using h
      rw [List.filter_cons_of_neg (by simp [same]), ih, List.lookup_cons, this]
    · rw [List.filter_cons_of_pos (by simp [same]), List.lookup_cons, List.lookup_cons, ih]

theorem node?_put (given : place ≠ []) :
    (fs.put place node).node? other = if other = place then some node else fs.node? other := by
  by_cases root : other = []
  · rw [if_neg (by rw [root]; exact given.symm), root]
    rfl
  · rw [node?_of_ne_nil root, node?_of_ne_nil root, put, List.lookup_append]
    by_cases same : other = place
    · rw [if_pos same, same, lookup_filter_self, Option.none_or, List.lookup_cons_self]
    · have differ : (other == place) = false := by simpa using same
      rw [if_neg same, lookup_filter_of_ne _ same, List.lookup_cons, differ, List.lookup_nil, Option.or_none]

theorem node?_drop (given : place ≠ []) :
    (fs.drop place).node? other = if other = place then none else fs.node? other := by
  by_cases root : other = []
  · rw [if_neg (by rw [root]; exact given.symm), root]
    rfl
  · rw [node?_of_ne_nil root, node?_of_ne_nil root, drop]
    by_cases same : other = place
    · rw [if_pos same, same, lookup_filter_self]
    · rw [if_neg same, lookup_filter_of_ne _ same]

theorem node?_putFile (given : place ≠ []) (content : Bytes) :
    (fs.putFile place content).node? other =
      if other = place then some (.file fs.contents.length) else fs.node? other :=
  node?_put given

section Grows

variable {last : FileSystem}

/-- Whether all that is in a file system is in another, at the same places and under the same numbers. -/
structure Grows (fs last : FileSystem) : Prop where
  nodes : ∀ place node, fs.node? place = some node → last.node? place = some node
  contents : fs.contents <+: last.contents

theorem Grows.refl (fs : FileSystem) : fs.Grows fs := ⟨fun _ _ found => found, List.prefix_refl _⟩

theorem Grows.trans {middle : FileSystem} (h : fs.Grows middle) (h' : middle.Grows last) : fs.Grows last :=
  ⟨fun place node found => h'.nodes place node (h.nodes place node found), h.contents.trans h'.contents⟩

theorem Grows.keeps (h : fs.Grows last) : fs.Keeps last := fun place node _ found => h.nodes place node found

/-- With something at a place where nothing was, a file system has grown. -/
theorem grows_of_new (free : fs.node? place = none) (contents : fs.contents <+: last.contents)
    (nodes : ∀ there, last.node? there = if there = place then some node else fs.node? there) : fs.Grows last := by
  refine ⟨fun there item found => ?_, contents⟩
  rw [nodes, if_neg, found]
  rintro rfl
  rw [free] at found
  cases found

theorem grows_put (given : place ≠ []) (free : fs.node? place = none) : fs.Grows (fs.put place node) :=
  grows_of_new free (List.prefix_refl _) fun _ => node?_put given

end Grows

theorem keeps_put (given : place ≠ []) (free : fs.node? place = none) : fs.Keeps (fs.put place node) :=
  (grows_put given free).keeps

theorem keeps_drop (given : place ≠ []) {number : Nat} (file : fs.node? place = some (.file number)) :
    fs.Keeps (fs.drop place) := by
  intro other item solid found
  rw [node?_drop given, if_neg, found]
  rintro rfl
  rw [file] at found
  exact solid number (Option.some.inj found).symm

theorem Keeps.trans {middle last : FileSystem} (h : fs.Keeps middle) (h' : middle.Keeps last) : fs.Keeps last :=
  fun place node solid found => h' place node solid (h place node solid found)

/-! ## What stands below a place -/

theorem mem_below : (names, node) ∈ fs.below place ↔ names ≠ [] ∧ (place ++ names, node) ∈ fs.nodes := by
  unfold below
  rw [List.mem_filterMap]
  constructor
  · rintro ⟨⟨p, item⟩, listed, h⟩
    simp only [Bool.and_eq_true, List.isPrefixOf_iff_prefix, bne_iff_ne, ne_eq] at h
    split at h
    · rename_i within
      obtain ⟨⟨rest, rfl⟩, longer⟩ := within
      simp only [List.drop_left, Option.some.injEq, Prod.mk.injEq] at h
      obtain ⟨rfl, rfl⟩ := h
      refine ⟨?_, listed⟩
      rintro rfl
      simp at longer
    · cases h
  · rintro ⟨given, listed⟩
    refine ⟨_, listed, ?_⟩
    simp [given]

/-- Whether nothing below a place is listed twice. -/
def Unique (fs : FileSystem) (place : Place) : Prop := ((fs.below place).map Prod.fst).Nodup

theorem mem_below_iff (unique : fs.Unique place) :
    (names, node) ∈ fs.below place ↔ names ≠ [] ∧ fs.node? (place ++ names) = some node := by
  constructor
  · intro h
    obtain ⟨given, listed⟩ := mem_below.1 h
    refine ⟨given, ?_⟩
    rw [node?_of_ne_nil (by simp [given])]
    cases found : fs.nodes.lookup (place ++ names) with
    | none =>
      have := List.lookup_eq_none_iff.1 found _ listed
      simp at this
    | some item =>
      have first : (names, item) ∈ fs.below place := by
        obtain ⟨l₁, l₂, same, -⟩ := List.lookup_eq_some_iff.1 found
        exact mem_below.2 ⟨given, by simp [same]⟩
      have same := List.inj_on_of_nodup_map unique first h rfl
      cases same
      rfl
  · intro ⟨given, found⟩
    rw [node?_of_ne_nil (by simp [given])] at found
    obtain ⟨l₁, l₂, same, -⟩ := List.lookup_eq_some_iff.1 found
    exact mem_below.2 ⟨given, by simp [same]⟩

theorem node?_of_below_nil (empty : fs.below place = []) (given : names ≠ []) : fs.node? (place ++ names) = none := by
  have unique : fs.Unique place := by simp [Unique, empty]
  cases found : fs.node? (place ++ names) with
  | none => rfl
  | some node =>
    have listed := (mem_below_iff unique).2 ⟨given, found⟩
    simp [empty] at listed

theorem below_drop : (fs.drop (place ++ names)).below place = (fs.below place).filter fun e => e.1 != names := by
  rw [below, below, drop, List.filterMap_filter, List.filter_filterMap]
  refine congrArg (fun f => List.filterMap f fs.nodes) (funext fun (p, item) => ?_)
  by_cases within : (place.isPrefixOf p && p.length != place.length) = true
  · simp only [Bool.and_eq_true, List.isPrefixOf_iff_prefix] at within
    obtain ⟨⟨rest, rfl⟩, longer⟩ := within
    simp at longer
    by_cases same : rest = names
    · subst same
      simp [longer, Option.filter]
    · simp [same, longer, Option.filter]
  · simp [within]

theorem below_put (given : names ≠ []) :
    (fs.put (place ++ names) node).below place =
      ((fs.below place).filter fun e => e.1 != names) ++ [(names, node)] := by
  have rest : (fs.put (place ++ names) node).below place =
      (fs.drop (place ++ names)).below place ++ (⟨[(place ++ names, node)], []⟩ : FileSystem).below place := by
    rw [below, below, below, put, List.filterMap_append]
    rfl
  have last : (⟨[(place ++ names, node)], []⟩ : FileSystem).below place = [(names, node)] := by
    simp [below, given]
  rw [rest, below_drop, last]

theorem Unique.drop (unique : fs.Unique place) : (fs.drop (place ++ names)).Unique place := by
  rw [Unique, below_drop]
  exact List.Nodup.sublist (List.Sublist.map _ (List.filter_sublist)) unique

theorem Unique.put (unique : fs.Unique place) (given : names ≠ []) :
    (fs.put (place ++ names) node).Unique place := by
  rw [Unique, below_put given, List.map_append, List.map_singleton]
  have front : (((fs.below place).filter fun e => e.1 != names).map Prod.fst).Nodup :=
    List.Nodup.sublist (List.Sublist.map _ (List.filter_sublist)) unique
  refine List.nodup_append.2 ⟨front, by simp, ?_⟩
  intro a ha b hb
  obtain ⟨e, he, rfl⟩ := List.mem_map.1 ha
  obtain rfl := List.mem_singleton.1 hb
  simpa using (List.mem_filter.1 he).2

/-! ## Entries of directories -/

variable {p : Path} {name : Bytes}

theorem bare_closed (closed : p.Closed) : p.bare = p := by
  obtain ⟨b, rest, hp⟩ := List.exists_cons_of_ne_nil (mt List.reverse_eq_nil_iff.1 closed.1)
  have last : p.bytes.getLast? = some b := by rw [← List.head?_reverse, hp, List.head?_cons]
  have hb : b ≠ slash := fun e => closed.2 (e ▸ last)
  have kept : (p.bytes.reverse.dropWhile (· == slash)).reverse = p.bytes := by
    rw [hp, List.dropWhile_cons_of_neg (by simpa using hb), ← hp, List.reverse_reverse]
  rw [Path.bare, kept]

theorem entry_closed (closed : p.Closed) : fs.entry p = fs.locate .look p := by
  unfold entry
  rw [bare_closed closed, if_neg closed.1]
  cases checked : checkPath .look p with
  | error fault => rw [locate, checked]
  | ok => rfl

theorem busy_split_slashes (n : Nat) : Path.busy (Path.split (List.replicate n slash)) = [] := by
  induction n with
  | zero => decide
  | succ n ih => simpa [List.replicate_succ, Path.split, Path.busy, Path.idle_iff] using ih

theorem busy_split_bare (p : Path) : Path.busy (Path.split p.bare.bytes) = Path.busy (Path.split p.bytes) := by
  have trail : ∀ b ∈ (p.bytes.reverse.takeWhile (· == slash)).reverse, b = slash := by
    intro b hb
    simpa using List.all_eq_true.1 List.all_takeWhile b (List.mem_reverse.1 hb)
  have whole : p.bytes = p.bare.bytes ++ (p.bytes.reverse.takeWhile (· == slash)).reverse := by
    rw [Path.bare, ← List.reverse_append, List.takeWhile_append_dropWhile, List.reverse_reverse]
  rw [List.eq_replicate_of_mem trail] at whole
  generalize (p.bytes.reverse.takeWhile (· == slash)).reverse.length = n at whole
  cases n with
  | zero => rw [List.replicate_zero, List.append_nil] at whole; rw [← whole]
  | succ n =>
    rw [whole, List.replicate_succ, Path.split_append_slash, Path.busy_append, busy_split_slashes, List.append_nil]

theorem DirectoryAt.entry (h : fs.DirectoryAt p place) : ∃ seen, fs.entry p = .ok (.found seen) := by
  obtain ⟨seen, looked⟩ := h.leads.look
  have sound := h.sound
  unfold FileSystem.entry
  rw [(checkPath_iff (Or.inl rfl)).2 sound]
  simp only
  split
  · exact ⟨seen, by rw [locate_eq (Or.inl rfl) sound, looked]⟩
  · rename_i given
    have subset : p.bare.bytes.Sublist p.bytes := by
      have := (List.dropWhile_sublist (l := p.bytes.reverse) (· == slash)).reverse
      rwa [List.reverse_reverse] at this
    have bare : Sound p.bare := by
      refine ⟨given, fun zero => sound.noZero (subset.subset zero), ?_⟩
      have := subset.length_le
      have := sound.short
      omega
    obtain ⟨seen, looked⟩ := (h.leads.congr (busy_split_bare p)).look
    exact ⟨seen, by rw [locate_eq (Or.inl rfl) bare, looked]⟩

theorem DirectoryAt.isDirectory (h : fs.DirectoryAt p place) : fs.isDirectory p = true := by
  simp [FileSystem.isDirectory, nodeAt?, h.reached, h.node]

theorem DirectoryAt.makeDirectory_self (h : fs.DirectoryAt p place) :
    fs.makeDirectory p = .error .alreadyExists := by
  obtain ⟨seen, found⟩ := h.entry
  rw [makeDirectory, found]
  rfl

theorem DirectoryAt.syncDirectory (h : fs.DirectoryAt p place) : fs.step (.syncDirectory p) = .ok fs := by
  rw [step, h.reached]
  rfl

theorem DirectoryAt.ensureDirectory_self (h : fs.DirectoryAt p place) : fs.ensureDirectory p = .ok fs := by
  rw [ensureDirectory, h.makeDirectory_self]
  simp [h.isDirectory]

section Entry

variable (h : fs.DirectoryAt p place) (usable : Usable name) (short : (p.push name).bytes.length ≤ pathLimit)
include h usable short

theorem DirectoryAt.makeDirectory_free (free : fs.node? (place ++ [name]) = none) :
    fs.makeDirectory (p.push name) = .ok (fs.put (place ++ [name]) .directory) := by
  have closed := Path.closed_push usable.toIsName p
  rw [makeDirectory, entry_closed closed, h.locate_missing (Or.inl rfl) usable short free]
  rfl

theorem DirectoryAt.ensureDirectory_free (free : fs.node? (place ++ [name]) = none) :
    fs.ensureDirectory (p.push name) = .ok (fs.put (place ++ [name]) .directory) := by
  rw [ensureDirectory, h.makeDirectory_free usable short free]

theorem DirectoryAt.makeFile_free (free : fs.node? (place ++ [name]) = none) :
    fs.makeFile (p.push name) = .ok (fs.putFile (place ++ [name]) []) := by
  rw [makeFile, h.locate_missing (Or.inl rfl) usable short free]
  rfl

variable {number : Nat} (file : fs.node? (place ++ [name]) = some (.file number))
include file

theorem DirectoryAt.reach_file : fs.reach (p.push name) = .ok (place ++ [name]) := by
  rw [reach, placeFor, h.locate_found (Or.inr rfl) usable short (by simp) file]

theorem DirectoryAt.isFile_file : fs.isFile (p.push name) = true := by
  simp [isFile, nodeAt?, h.reach_file usable short file, file]

theorem DirectoryAt.fileNumber_file : fs.fileNumber (p.push name) = .ok number := by
  rw [fileNumber, h.reach_file usable short file]
  simp only [bind, Except.bind, file]
  rfl

theorem DirectoryAt.contentAt_file : fs.contentAt (p.push name) = .ok (fs.content number) := by
  rw [contentAt, h.fileNumber_file usable short file]
  rfl

theorem DirectoryAt.append_file (bytes : Bytes) :
    fs.append (p.push name) bytes = .ok (fs.setContent number (fs.content number ++ bytes)) := by
  rw [append, h.fileNumber_file usable short file]
  rfl

theorem DirectoryAt.unlink_file : fs.unlink (p.push name) = .ok (fs.drop (place ++ [name])) := by
  have closed := Path.closed_push usable.toIsName p
  have notOpen : (p.push name).endsOpen = false := by
    simpa [Path.endsOpen] using closed.2
  rw [unlink, entry_closed closed, h.locate_found (Or.inl rfl) usable short (by simp) file]
  simp only [bind, Except.bind, file, notOpen]
  rfl

theorem DirectoryAt.move_long {target : Path} (long : pathLimit < target.bytes.length) :
    ∃ fault, fs.move (p.push name) target = .error fault := by
  obtain ⟨fault, refused⟩ : ∃ fault, fs.locate .look target = .error fault := locate_long (by decide) long
  refine ⟨fault, ?_⟩
  rw [move, h.locate_found (Or.inl rfl) usable short (by simp) file]
  simp only [bind, Except.bind, file, refused]

/-- A file is moved to where nothing is. -/
theorem DirectoryAt.move_file {target : Path} {directory : Place} {last : Bytes}
    (located : fs.locate .look target = .ok (.missing directory last)) :
    fs.move (p.push name) target = .ok ((fs.drop (place ++ [name])).put (directory ++ [last]) (.file number)) := by
  rw [move, h.locate_found (Or.inl rfl) usable short (by simp) file]
  simp only [bind, Except.bind, file, located]
  rfl

end Entry

/-- The file system when a new file with some bytes is written. -/
def written (fs : FileSystem) (place : Place) (data : Bytes) : FileSystem :=
  (fs.putFile place []).setContent fs.contents.length ((fs.putFile place []).content fs.contents.length ++ data)

theorem contents_written (fs : FileSystem) (place : Place) (data : Bytes) :
    (fs.written place data).contents = fs.contents ++ [data] := by
  simp [written, putFile, setContent, content, put]

theorem node?_written (given : place ≠ []) (data : Bytes) :
    (fs.written place data).node? other =
      if other = place then some (.file fs.contents.length) else fs.node? other :=
  node?_put given

theorem keeps_written (given : place ≠ []) (free : fs.node? place = none) (data : Bytes) :
    fs.Keeps (fs.written place data) :=
  keeps_put given free

theorem Unique.written {top : Place} (unique : fs.Unique top) (given : names ≠ []) (data : Bytes) :
    (fs.written (top ++ names) data).Unique top :=
  unique.put given

theorem DirectoryAt.append_made (h : fs.DirectoryAt p place) (usable : Usable name)
    (short : (p.push name).bytes.length ≤ pathLimit) (free : fs.node? (place ++ [name]) = none) (data : Bytes) :
    (fs.putFile (place ++ [name]) []).append (p.push name) data = .ok (fs.written (place ++ [name]) data) := by
  have given : place ++ [name] ≠ [] := by simp
  have keeps : fs.Keeps (fs.putFile (place ++ [name]) []) := keeps_put given free
  have file : (fs.putFile (place ++ [name]) []).node? (place ++ [name]) = some (.file fs.contents.length) := by
    rw [node?_putFile given, if_pos rfl]
  exact (h.mono keeps).append_file usable short file data

/-- A file that is written under another name stays there if it may not be moved to its place. -/
theorem DirectoryAt.write_long {q : Path} (h : fs.DirectoryAt p place) (usable : Usable name)
    (short : (p.push name).bytes.length ≤ pathLimit) (free : fs.node? (place ++ [name]) = none)
    (long : pathLimit < q.bytes.length) (data : Bytes) :
    ∃ fault, fs.steps [.makeFile (p.push name), .append (p.push name) data, .sync (p.push name),
      .move (p.push name) q, .syncDirectory p] = (.error fault, fs.written (place ++ [name]) data) := by
  have given : place ++ [name] ≠ [] := by simp
  have file : (fs.written (place ++ [name]) data).node? (place ++ [name]) = some (.file fs.contents.length) := by
    rw [node?_written given, if_pos rfl]
  have made := h.makeFile_free usable short free
  have appended := h.append_made usable short free data
  obtain ⟨fault, refused⟩ := (h.mono (keeps_written given free data)).move_long usable short file long
  exact ⟨fault, by simp only [steps_cons, step, made, appended, refused]⟩

section Moved

variable {q : Path} {last : Bytes} (h : fs.DirectoryAt p place) (usable : Usable name)
  (short : (p.push name).bytes.length ≤ pathLimit) (free : fs.node? (place ++ [name]) = none)
  (target : fs.DirectoryAt q place) (usableLast : Usable last) (shortLast : (q.push last).bytes.length ≤ pathLimit)
  (freeLast : fs.node? (place ++ [last]) = none) (apart : last ≠ name) (data : Bytes)
include h usable short free target usableLast shortLast freeLast apart

theorem DirectoryAt.move_written :
    ∃ final, (fs.written (place ++ [name]) data).move (p.push name) (q.push last) = .ok final ∧
      fs.Keeps final ∧ final.contents = fs.contents ++ [data] ∧
      (∀ there, final.node? there =
        if there = place ++ [last] then some (.file fs.contents.length) else fs.node? there) ∧
      ∀ {top names}, place = top ++ names → fs.Unique top → final.Unique top := by
  have given : place ++ [name] ≠ [] := by simp
  have givenLast : place ++ [last] ≠ [] := by simp
  have keeps := keeps_written given free data
  have file : (fs.written (place ++ [name]) data).node? (place ++ [name]) = some (.file fs.contents.length) := by
    rw [node?_written given, if_pos rfl]
  have freed : (fs.written (place ++ [name]) data).node? (place ++ [last]) = none := by
    rw [node?_written given, if_neg (by simpa using apart), freeLast]
  have located := (target.mono keeps).locate_missing (Or.inl rfl) usableLast shortLast freed
  have dropped := keeps_drop given file
  have stillFree : ((fs.written (place ++ [name]) data).drop (place ++ [name])).node? (place ++ [last]) = none := by
    rw [node?_drop given, if_neg (by simpa using apart), freed]
  refine ⟨((fs.written (place ++ [name]) data).drop (place ++ [name])).put (place ++ [last])
    (.file fs.contents.length), (h.mono keeps).move_file usable short file located,
    keeps.trans (dropped.trans (keeps_put givenLast stillFree)), contents_written fs _ data, ?_, ?_⟩
  · intro there
    rw [node?_put givenLast, node?_drop given, node?_written given]
    by_cases atLast : there = place ++ [last]
    · rw [if_pos atLast, if_pos atLast]
    · rw [if_neg atLast, if_neg atLast]
      by_cases atFirst : there = place ++ [name]
      · rw [if_pos atFirst, atFirst, free]
      · rw [if_neg atFirst, if_neg atFirst]
  · intro top names here unique
    subst here
    simp only [List.append_assoc]
    exact (unique.written (by simp) data).drop.put (by simp)

/-- **A file is written under another name and moved to its place.** -/
theorem DirectoryAt.write :
    ∃ final, fs.steps [.makeFile (p.push name), .append (p.push name) data, .sync (p.push name),
        .move (p.push name) (q.push last), .syncDirectory p] = (.ok (), final) ∧
      fs.Keeps final ∧ final.contents = fs.contents ++ [data] ∧
      (∀ there, final.node? there =
        if there = place ++ [last] then some (.file fs.contents.length) else fs.node? there) ∧
      ∀ {top names}, place = top ++ names → fs.Unique top → final.Unique top := by
  have made := h.makeFile_free usable short free
  have appended := h.append_made usable short free data
  obtain ⟨final, moved, keeps, rest⟩ :=
    h.move_written usable short free target usableLast shortLast freeLast apart data
  have synced := (h.mono keeps).syncDirectory
  refine ⟨final, ?_, keeps, rest⟩
  rw [step] at synced
  simp only [steps_cons, steps_nil, step, made, appended, moved, synced]

end Moved

/-! ## Where nothing is -/

theorem reach_nowhere (h : Nowhere (fs.locate .reach p)) : fs.reach p = .error .notFound := by
  rw [reach, placeFor]
  rcases h with h | ⟨directory, name, h⟩ <;> rw [h]

theorem isFile_nowhere (h : Nowhere (fs.locate .reach p)) : fs.isFile p = false := by
  simp [isFile, nodeAt?, reach_nowhere h]

theorem contentAt_nowhere (h : Nowhere (fs.locate .reach p)) : fs.contentAt p = .error .notFound := by
  rw [contentAt, fileNumber, reach_nowhere h]
  rfl

theorem unlink_nowhere (closed : p.Closed) (h : Nowhere (fs.locate .look p)) : fs.unlink p = .error .notFound := by
  rw [unlink, entry_closed closed]
  rcases h with h | ⟨directory, name, h⟩ <;> rw [h] <;> rfl

/-! ## Paths that are too long -/

section Long

variable (long : pathLimit < p.bytes.length)
include long

theorem entry_long (fs : FileSystem) : ∃ fault, fault ≠ .notFound ∧ fs.entry p = .error fault := by
  obtain ⟨fault, other, refused⟩ := checkPath_long (by decide : Purpose.look ≠ .place) long
  exact ⟨fault, other, by rw [FileSystem.entry, refused]⟩

theorem makeFile_long (fs : FileSystem) : ∃ fault, fs.makeFile p = .error fault := by
  obtain ⟨fault, refused⟩ : ∃ fault, fs.locate .look p = .error fault := locate_long (by decide) long
  exact ⟨fault, by rw [makeFile, refused]; rfl⟩

theorem unlink_long (fs : FileSystem) : ∃ fault, fs.unlink p = .error fault := by
  obtain ⟨fault, -, refused⟩ := entry_long long fs
  exact ⟨fault, by rw [unlink, refused]; rfl⟩

theorem reach_long (fs : FileSystem) : ∃ fault, fs.reach p = .error fault := by
  obtain ⟨fault, refused⟩ : ∃ fault, fs.locate .reach p = .error fault := locate_long (by decide) long
  exact ⟨fault, by rw [reach, placeFor, refused]⟩

/-- Where the path of a directory is too long, nothing is made above it, and it is not made. -/
theorem directorySteps_long (fs : FileSystem) :
    fs.directorySteps p = [.ensureDirectory p] ∧ ∃ fault, fs.ensureDirectory p = .error fault := by
  obtain ⟨above, hup⟩ := Path.exists_upwards (List.length_pos_iff.1 (by omega : 0 < p.bytes.length))
  obtain ⟨fault, other, refused⟩ := entry_long long fs
  have unmade : fs.makeDirectory p = .error fault := by
    rw [makeDirectory, refused]
    rfl
  obtain ⟨_, unreached⟩ := reach_long long fs
  refine ⟨?_, fault, by simp [ensureDirectory, unmade, isDirectory, nodeAt?, unreached]⟩
  rw [directorySteps, hup, directoriesToMake, unmade]
  simp [other]

theorem stepsOn_long (disk : Disk) (taken : Nat) (rest : List Step) (fs : FileSystem) :
    ∃ fault, fs.stepsOn disk taken (fs.directorySteps p ++ rest) = (.error fault, fs) := by
  obtain ⟨only, fault, refused⟩ := directorySteps_long long fs
  rw [only, List.singleton_append, stepsOn]
  split
  · exact ⟨_, rfl⟩
  · rw [step, refused]
    exact ⟨fault, rfl⟩

end Long

/-! ## Rows of directories -/

theorem steps_append (fs : FileSystem) (front back : List Step) :
    fs.steps (front ++ back) =
      match fs.steps front with
      | (.ok (), fs) => fs.steps back
      | (.error fault, fs) => (.error fault, fs) := by
  induction front generalizing fs with
  | nil => rfl
  | cons first front ih =>
    simp only [List.cons_append, steps_cons]
    cases fs.step first with
    | error fault => rfl
    | ok next => exact ih next

theorem step_of_steps {all : List Step} (ran : (fs.steps all).1 = .ok ()) {one : Step} (mem : one ∈ all) :
    ∃ before after : FileSystem, before.step one = .ok after := by
  induction all generalizing fs with
  | nil => cases mem
  | cons first rest ih =>
    rw [steps_cons] at ran
    cases taken : fs.step first with
    | error fault =>
      rw [taken] at ran
      cases ran
    | ok after =>
      rw [taken] at ran
      rcases List.mem_cons.1 mem with rfl | mem
      · exact ⟨fs, after, taken⟩
      · exact ih ran mem

theorem located_of_move {source target : Path} {after : FileSystem} (moved : fs.move source target = .ok after) :
    ∃ destination, fs.locate .look target = .ok destination := by
  unfold move at moved
  cases located : fs.locate .look target with
  | ok destination => exact ⟨destination, rfl⟩
  | error fault =>
    rw [located] at moved
    simp only [bind, Except.bind] at moved
    split at moved
    · cases moved
    · split at moved
      · cases moved
      · split at moved <;> cases moved

/-- How a file system grows when directories on the way along `names` are made. -/
inductive Grown (place : Place) (names : List Bytes) (fs : FileSystem) : FileSystem → Prop where
  | same : Grown place names fs fs
  | made {last : FileSystem} {init : List Bytes} {name : Bytes} (grown : Grown place names fs last)
    (within : init ++ [name] <+: names) (spine : last.Spine place init)
    (free : last.node? (place ++ (init ++ [name])) = none) :
    Grown place names fs (last.put (place ++ (init ++ [name])) .directory)

theorem Grown.keeps {last : FileSystem} (h : Grown place names fs last) : fs.Keeps last := by
  induction h with
  | same => exact fun _ _ _ found => found
  | made _ _ _ free ih => exact ih.trans (keeps_put (by simp) free)

theorem Grown.longer {last : FileSystem} (h : Grown place names fs last) {more : List Bytes} :
    Grown place (names ++ more) fs last := by
  induction h with
  | same => exact .same
  | made _ within spine free ih => exact .made ih (within.trans (List.prefix_append _ _)) spine free

theorem walk_broken {purpose : Purpose} (ordinary : purpose = .look ∨ purpose = .reach) {links : Nat}
    {name : Bytes} (usable : ∀ n ∈ names, Usable n) (clear : fs.Clear place names)
    (broken : ¬fs.Spine place names) :
    fs.walk purpose links place (names ++ [name]) = .error .notFound := by
  induction names generalizing place with
  | nil => exact absurd (spine_nil fs place) broken
  | cons first names ih =>
    have hfirst := usable first (by simp)
    rw [List.cons_append, walk_name ordinary hfirst.not_idle hfirst.notUp hfirst.brief]
    rcases clear [first] (by simp) (by simp) with node | node
    · rw [node]
      simp
    · rw [node]
      exact ih (fun n hn => usable n (by simp [hn])) clear.tail fun spine => broken (spine_cons node spine)

theorem Spine.put {name : Bytes} (spine : fs.Spine place names)
    (free : fs.node? (place ++ (names ++ [name])) = none) :
    (fs.put (place ++ (names ++ [name])) .directory).Spine place (names ++ [name]) := by
  refine spine_concat (fun init within given => ?_) ?_
  · exact keeps_put (by simp) free _ _ (by simp) (spine init within given)
  · rw [node?_put (by simp), if_pos rfl]

theorem Grown.clear {last : FileSystem} (h : Grown place names fs last) {others : List Bytes}
    (clear : fs.Clear place others) : last.Clear place others := by
  induction h with
  | same => exact clear
  | made _ _ _ _ ih =>
    intro init within given
    rw [node?_put (by simp)]
    split
    · exact Or.inr rfl
    · exact ih init within given

theorem Grown.next {last : FileSystem} (h : Grown place names fs last) (spine : last.Spine place names)
    (above : last.DirectoryAt p (place ++ names)) {name : Bytes} (usable : Usable name)
    (short : (p.push name).bytes.length ≤ pathLimit) (clear : last.Clear place (names ++ [name])) :
    ∃ final, last.ensureDirectory (p.push name) = .ok final ∧ Grown place (names ++ [name]) fs final ∧
      final.Spine place (names ++ [name]) := by
  rcases clear (names ++ [name]) (List.prefix_refl _) (by simp) with free | node
  · have made := above.ensureDirectory_free usable short (by rw [List.append_assoc, free])
    rw [List.append_assoc] at made
    exact ⟨_, made, .made h.longer (List.prefix_refl _) spine free, spine.put free⟩
  · have there := above.push usable short (by rw [List.append_assoc, node])
    exact ⟨last, there.ensureDirectory_self, h.longer, spine_concat spine node⟩

theorem DirectoryAt.makeDirectories_self (h : fs.DirectoryAt p place) : fs.makeDirectories p = (.ok (), fs) := by
  obtain ⟨above, hup⟩ := Path.exists_upwards h.sound.given
  rw [FileSystem.makeDirectories, directorySteps, hup, directoriesToMake, h.makeDirectory_self]
  simp [steps_cons, steps_nil, step, h.ensureDirectory_self]

/-- **A row of directories is made, as far as there is none.** -/
theorem DirectoryAt.makeDirectories (h : fs.DirectoryAt p place) (usable : ∀ n ∈ names, Usable n)
    (short : (p.extend names).bytes.length ≤ pathLimit) (clear : fs.Clear place names) :
    ∃ last, fs.makeDirectories (p.extend names) = (.ok (), last) ∧ Grown place names fs last ∧
      last.Spine place names := by
  unfold FileSystem.makeDirectories directorySteps
  induction names using List.reverseRecOn generalizing p with
  | nil =>
    exact ⟨fs, h.makeDirectories_self, .same, spine_nil fs place⟩
  | append_singleton names name ih =>
    have hname : Usable name := usable name (by simp)
    have hnames : ∀ n ∈ names, Usable n := fun n hn => usable n (by simp [hn])
    have isNames : ∀ n ∈ names, IsName n := fun n hn => (hnames n hn).toIsName
    rw [Path.extend_concat] at short ⊢
    have shorter : (p.extend names).bytes.length ≤ pathLimit := by
      have := Path.length_le_push (p := p.extend names) hname.whole
      omega
    rw [Path.upwards_push (Path.extend_ne_nil h.sound.given isNames) hname.toIsName,
      Path.ofComponents_extend h.sound.given isNames]
    -- the row is made from the last directory that is there, so what is above is made first if it is missing
    by_cases spine : fs.Spine place names
    · have above := h.extend hnames shorter spine
      obtain ⟨final, made, grown, whole⟩ := Grown.same.next spine above hname short clear
      have direct (above' : List Path) : fs.directoriesToMake ((p.extend names).push name :: above') =
          [(p.extend names).push name] := by
        rw [directoriesToMake]
        rcases clear (names ++ [name]) (List.prefix_refl _) (by simp) with free | node
        · rw [above.makeDirectory_free hname short (by rw [List.append_assoc, free])]
        · rw [(above.push hname short (by rw [List.append_assoc, node])).makeDirectory_self]
      refine ⟨final, ?_, grown, whole⟩
      rw [direct]
      simp [steps_cons, steps_nil, step, made]
    · have shorterPlain : ((Path.ofComponents p.components).extend names).bytes.length ≤ pathLimit := by
        rw [← Path.ofComponents_extend h.sound.given isNames]
        exact Nat.le_trans (Path.length_ofComponents_le _) shorter
      obtain ⟨last, ran, grown, spineLast⟩ := ih h.plain hnames shorterPlain clear.of_append
      have refused : fs.makeDirectory ((p.extend names).push name) = .error .notFound := by
        obtain ⟨left, located⟩ := h.locate_extend (Or.inl rfl) usable (by simp) (by rwa [Path.extend_concat])
        rw [walk_broken (Or.inl rfl) hnames clear.of_append spine, Path.extend_concat] at located
        rw [makeDirectory, entry_closed (Path.closed_push hname.toIsName _), located]
        rfl
      have above := (h.mono grown.keeps).extend hnames shorter spineLast
      obtain ⟨final, made, grownFinal, whole⟩ := grown.next spineLast above hname short (grown.clear clear)
      refine ⟨final, ?_, grownFinal, whole⟩
      rw [directoriesToMake, refused]
      simp only [List.map_append, steps_append, ran]
      simp [steps_cons, steps_nil, step, made]

end ContentChunks.FileSystem
