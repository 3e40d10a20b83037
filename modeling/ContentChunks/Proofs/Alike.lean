/-
File systems of which a store tells the same: what is got for any signature,
whether it is contained, and which items are listed. A store does not tell of a
new directory above an object, nor of a temporary file beside one.

Main statements:
- `FileSystem.DirectoryAt.sameFile`: what a path leads to depends on what stands along it.
- `FileSystem.DirectoryAt.sameFile_of_new`: a new directory leads to no file that was not there.
- `Store.alike_of_hidden`: of what is not listed and on no path to an object nothing is told.
-/
import ContentChunks.Proofs.StoreMap

namespace ContentChunks

namespace FileSystem

open ContentChunks.Path (IsName)

variable {fs other : FileSystem} {place : Place} {names hidden : List Bytes} {node : Node} {p : Path}

/-- Whether what is below a place is in order: each thing is listed once, is in a
directory and is no link, and a file has a content. -/
structure Grounded (fs : FileSystem) (place : Place) : Prop where
  unique : fs.Unique place
  above : ∀ names name, names ≠ [] → fs.node? (place ++ (names ++ [name])) ≠ none →
    fs.node? (place ++ names) = some .directory
  noLinks : fs.Solid place
  filled : ∀ names number, names ≠ [] → fs.node? (place ++ names) = some (.file number) →
    number < fs.contents.length

theorem Grounded.spine (grounded : fs.Grounded place) {name : Bytes}
    (node : fs.node? (place ++ (names ++ [name])) ≠ none) : fs.Spine place names := by
  induction names using List.reverseRecOn generalizing name with
  | nil => exact spine_nil fs place
  | append_singleton names last ih =>
    have directory := grounded.above (names ++ [last]) name (by simp) node
    exact spine_concat (ih (by rw [directory]; simp)) directory

theorem Grounded.free (grounded : fs.Grounded place) (given : hidden ≠ []) (free : fs.node? (place ++ hidden) = none)
    (more : List Bytes) : fs.node? (place ++ (hidden ++ more)) = none := by
  induction more using List.reverseRecOn with
  | nil => rwa [List.append_nil]
  | append_singleton more last ih =>
    by_contra there
    rw [← List.append_assoc hidden] at there
    rw [grounded.above (hidden ++ more) last (by simp [given]) there] at ih
    cases ih

/-! ## The same file -/

/-- Whether a path leads to the same content in two file systems, or to none in both. -/
structure SameFile (fs other : FileSystem) (p : Path) : Prop where
  content : other.contentAt p = fs.contentAt p
  isFile : other.isFile p = fs.isFile p

theorem sameFile_of_reach (reached : other.reach p = fs.reach p)
    (same : ∀ there, fs.reach p = .ok there → other.node? there = fs.node? there ∧
      ∀ number, fs.node? there = some (.file number) → other.content number = fs.content number) :
    SameFile fs other p := by
  cases found : fs.reach p with
  | error fault =>
    rw [found] at reached
    refine ⟨?_, by simp only [isFile, nodeAt?, reached, found]⟩
    rw [contentAt, contentAt, fileNumber, fileNumber, reached, found]
    rfl
  | ok there =>
    rw [found] at reached
    obtain ⟨nodes, contents⟩ := same there found
    refine ⟨?_, by simp only [isFile, nodeAt?, reached, found, nodes]⟩
    simp only [contentAt, fileNumber, reached, found, nodes, bind, Except.bind]
    cases node : fs.node? there with
    | none => rfl
    | some item =>
      cases item with
      | directory => rfl
      | link target => rfl
      | file number => exact congrArg Except.ok (contents number node)

theorem sameFile_of_nowhere (here : Nowhere (fs.locate .reach p)) (there : Nowhere (other.locate .reach p)) :
    SameFile fs other p :=
  ⟨by rw [contentAt_nowhere here, contentAt_nowhere there], by rw [isFile_nowhere here, isFile_nowhere there]⟩

theorem content_within (contents : fs.contents <+: other.contents) {number : Nat}
    (within : number < fs.contents.length) : other.content number = fs.content number := by
  obtain ⟨more, same⟩ := contents
  rw [content, content, ← same, List.getElem?_append_left within]

section Below

variable (h : fs.DirectoryAt p place) (h' : other.DirectoryAt p place) (grounded : fs.Grounded place)
include h h' grounded

/-- **A path leads to the same file** if the same stands along it. -/
theorem DirectoryAt.sameFile (isName : ∀ n ∈ names, IsName n) (agree : fs.Agree other place names)
    (contents : fs.contents <+: other.contents) : SameFile fs other (p.extend names) := by
  by_cases given : names = []
  · subst given
    refine sameFile_of_reach (by rw [Path.extend_nil, h.reached, h'.reached]) fun there reached => ?_
    rw [Path.extend_nil, h.reached] at reached
    obtain rfl := Except.ok.inj reached
    rw [h.node, h'.node]
    exact ⟨rfl, fun number => nofun⟩
  have located := h.locate_congr h' grounded.noLinks (.inr rfl) isName given agree
  refine sameFile_of_reach (by rw [reach, reach, placeFor, placeFor, located]) fun there reached => ?_
  obtain rfl := h.place_of_reach grounded.noLinks isName reached
  refine ⟨agree names (List.prefix_refl _) given, fun number file => ?_⟩
  exact content_within contents (grounded.filled names number given file)

/-- **A new directory leads to no file**: whatever goes on from it led nowhere before, and does now. -/
theorem DirectoryAt.sameFile_of_new (usable : ∀ n ∈ names, Usable n) {front : List Bytes} {name : Bytes}
    (within : front ++ [name] <+: names) (shorter : front ++ [name] ≠ names) (spine : fs.Spine place front)
    (free : fs.node? (place ++ (front ++ [name])) = none)
    (nodes : ∀ there, other.node? there =
      if there = place ++ (front ++ [name]) then some .directory else fs.node? there) :
    SameFile fs other (p.extend names) := by
  have given : names ≠ [] := by
    rintro rfl
    exact shorter (List.prefix_nil.1 within)
  cases checked : checkPath .reach (p.extend names) with
  | error fault =>
    have refused (system : FileSystem) : system.reach (p.extend names) = .error fault := by
      rw [reach, placeFor, locate, checked]
    refine sameFile_of_reach (by rw [refused, refused]) fun there reached => ?_
    rw [refused] at reached
    cases reached
  | ok =>
    have short := ((checkPath_iff (.inr rfl)).1 checked).short
    have below (init : List Bytes) (longer : front ++ [name] <+: init) : fs.node? (place ++ init) = none := by
      obtain ⟨more, rfl⟩ := longer
      exact grounded.free (by simp) free more
    -- up to the new directory there are directories, and beyond it nothing
    have clear : fs.Clear place names := by
      intro init here filled
      rcases List.prefix_or_prefix_of_prefix here within with before | beyond
      · rcases List.prefix_concat_iff.1 before with rfl | before
        · exact .inl free
        · exact .inr (spine init before filled)
      · exact .inl (below init beyond)
    have clear' : other.Clear place names := by
      intro init here filled
      rw [nodes]
      split
      · exact .inr rfl
      · exact clear init here filled
    have last : other.node? (place ++ names) = none := by
      rw [nodes, if_neg fun same => shorter (List.append_cancel_left same).symm, below names within]
    exact sameFile_of_nowhere (h.locate_absent (.inr rfl) usable given short (below names within) clear)
      (h'.locate_absent (.inr rfl) usable given short last clear')

end Below

theorem agree_of_hidden
    (nodes : ∀ there, other.node? there = if there = place ++ hidden then some node else fs.node? there)
    (apart : ¬hidden <+: names) : fs.Agree other place names := by
  intro init within _
  rw [nodes, if_neg]
  intro same
  obtain rfl := List.append_cancel_left same
  exact apart within

end FileSystem

namespace Store

open FileSystem (pathLimit outOfReach SameFile Usable)

variable {s : Store} {place : Place} {fs other : FileSystem} {names hidden : List Bytes} {node : Node}
  {signature : Signature}

theorem Holds.grounded {m : Payloads} (h : s.Holds place fs m) : fs.Grounded place := by
  refine ⟨h.unique, h.above, fun names target given found => h.entry names _ given found, ?_⟩
  intro names number given found
  obtain ⟨_, _, _, _, content⟩ := h.entry names _ given found
  exact (List.getElem?_eq_some_iff.1 content).1

/-! ## What a store tells -/

/-- Whether a store tells the same of two file systems. -/
structure Alike (s : Store) (fs other : FileSystem) : Prop where
  get : ∀ signature, s.get other signature = s.get fs signature
  contains : ∀ signature, s.contains other signature = s.contains fs signature
  list : ∀ item, item ∈ s.list other ↔ item ∈ s.list fs

theorem Alike.refl (s : Store) (fs : FileSystem) : s.Alike fs fs := ⟨fun _ => rfl, fun _ => rfl, fun _ => Iff.rfl⟩

theorem Alike.trans {last : FileSystem} (h : s.Alike fs other) (h' : s.Alike other last) : s.Alike fs last where
  get signature := (h'.get signature).trans (h.get signature)
  contains signature := (h'.contains signature).trans (h.contains signature)
  list item := (h'.list item).trans (h.list item)

theorem get_congr (same : SameFile fs other (s.path signature)) : s.get other signature = s.get fs signature := by
  rw [get, get, same.content]

theorem contains_congr (same : SameFile fs other (s.path signature)) :
    s.contains other signature = s.contains fs signature := by
  rw [contains, contains, same.isFile]

theorem path_eq_root (empty : signature.digest = []) : s.path signature = s.root := by
  have unnamed : Key.names signature s.config.segmentWidth = [] := by
    simp [Key.names, Base32.encode, Base32.rows, empty]
  rw [path, Key.path, unnamed]
  rfl

/-- The path of a signature goes on from that of the store along the names of its key, if there are any. -/
theorem exists_names (pos : 0 < s.config.segmentWidth) (signature : Signature) :
    ∃ names, s.path signature = s.root.extend names ∧ (∀ n ∈ names, Path.IsName n) ∧
      (names = [] ∨ signature.digest ≠ [] ∧ names = Key.place signature s.config.segmentWidth) := by
  by_cases digest : signature.digest = []
  · exact ⟨[], path_eq_root digest, by simp, .inl rfl⟩
  · exact ⟨_, Key.path_eq pos digest s.root, fun _ hn => Key.isName_of_mem_place pos digest hn, .inr ⟨digest, rfl⟩⟩

/-- What a list tells of an entry. -/
def told (s : Store) (names : Place) (node : Node) : Option (Except Error Signature) :=
  if names.length ≠ 1 ∧ outOfReach s.root names.dropLast then none
  else s.item? names (if node = .directory ∧ outOfReach s.root names then .error .nameTooLong else .ok node)

theorem list_eq_told (root : fs.DirectoryAt s.root place) :
    s.list fs = (fs.below place).filterMap fun e => s.told e.1 e.2 := by
  rw [list, FileSystem.seenBelow, root.reached]
  show List.filterMap _ (List.filterMap _ _) = _
  rw [List.filterMap_filterMap]
  refine List.filterMap_congr fun e _ => ?_
  dsimp only [told]
  split
  · rfl
  · split <;> rfl

theorem mem_list (root : fs.DirectoryAt s.root place) (unique : fs.Unique place) {item : Except Error Signature} :
    item ∈ s.list fs ↔
      ∃ names node, names ≠ [] ∧ fs.node? (place ++ names) = some node ∧ s.told names node = some item := by
  rw [list_eq_told root, List.mem_filterMap]
  constructor
  · intro ofEntry
    obtain ⟨⟨names, node⟩, listed, isTold⟩ := ofEntry
    obtain ⟨given, found⟩ := (FileSystem.mem_below_iff unique).1 listed
    exact ⟨names, node, given, found, isTold⟩
  · intro ofNode
    obtain ⟨names, node, given, found, isTold⟩ := ofNode
    exact ⟨(names, node), (FileSystem.mem_below_iff unique).2 ⟨given, found⟩, isTold⟩

theorem told_temporary {name : Bytes} (temporary : isTemporary name = true) (front : List Bytes) (number : Nat) :
    s.told (front ++ [name]) (.file number) = none := by
  simp [told, item?, temporary]

theorem told_folder (pos : 0 < s.config.segmentWidth) (takes : s.Takes signature)
    (short : (s.folder signature).bytes.length ≤ pathLimit) (within : hidden <+: s.folders signature)
    (given : hidden ≠ []) : s.told hidden .directory = none := by
  simp [told, item?, folder_outOfReach pos takes short within given]

theorem told_object (pos : 0 < s.config.segmentWidth) (takes : s.Takes signature)
    (short : (s.path signature).bytes.length ≤ pathLimit) (number : Nat) :
    s.told (s.folders signature ++ [s.object signature]) (.file number) = some (.ok signature) := by
  have near : ¬((s.folders signature ++ [s.object signature]).length ≠ 1 ∧
      outOfReach s.root (s.folders signature ++ [s.object signature]).dropLast = true) := by
    rw [List.dropLast_concat]
    intro ⟨deep, far⟩
    rw [folder_outOfReach pos takes (length_folder_le pos takes short) (List.prefix_refl _) (by simpa using deep)] at far
    cases far
  have read : Key.signature ⟨Path.join (s.folders signature ++ [s.object signature])⟩ s.config.algorithm
      s.config.segmentWidth = .ok signature := by
    rw [← takes.algorithm]
    exact Key.signature_place pos takes.sized
  rw [told, if_neg near]
  simp [item?, isTemporary_object pos takes, read]

/-! ## What it does not tell -/

/-- **Of what is not listed and on no path to an object nothing is told.** -/
theorem alike_of_hidden (root : fs.DirectoryAt s.root place) (root' : other.DirectoryAt s.root place)
    (unique : fs.Unique place) (unique' : other.Unique place)
    (nodes : ∀ there, other.node? there = if there = place ++ hidden then some node else fs.node? there)
    (free : fs.node? (place ++ hidden) = none) (untold : s.told hidden node = none)
    (same : ∀ signature, SameFile fs other (s.path signature)) : s.Alike fs other := by
  refine ⟨fun signature => get_congr (same signature), fun signature => contains_congr (same signature), fun item => ?_⟩
  rw [mem_list root unique, mem_list root' unique']
  constructor
  · intro ⟨names, item, given, found, isTold⟩
    rw [nodes] at found
    split at found
    · rename_i here
      rw [List.append_cancel_left here, ← Option.some.inj found, untold] at isTold
      cases isTold
    · exact ⟨names, item, given, found, isTold⟩
  · intro ⟨names, item, given, found, isTold⟩
    refine ⟨names, item, given, ?_, isTold⟩
    rw [nodes, if_neg, found]
    intro here
    rw [here, free] at found
    cases found

section Hidden

variable (pos : 0 < s.config.segmentWidth) (root : fs.DirectoryAt s.root place)
  (root' : other.DirectoryAt s.root place) (grounded : fs.Grounded place)
include pos root root' grounded

/-- What stands at no place of a key makes no difference to its object. -/
theorem sameFile_of_hidden (contents : fs.contents <+: other.contents)
    (nodes : ∀ there, other.node? there = if there = place ++ hidden then some node else fs.node? there)
    (apart : signature.digest ≠ [] → ¬hidden <+: Key.place signature s.config.segmentWidth) (given : hidden ≠ []) :
    SameFile fs other (s.path signature) := by
  obtain ⟨names, path, isName, key⟩ := s.exists_names pos signature
  rw [path]
  refine root.sameFile root' grounded isName (FileSystem.agree_of_hidden nodes fun within => ?_) contents
  obtain rfl | ⟨digest, rfl⟩ := key
  · exact given (List.prefix_nil.1 within)
  · exact apart digest within

section Folder

variable (takes : s.Takes signature) {front : List Bytes} {name : Bytes}
  (within : front ++ [name] <+: s.folders signature) (spine : fs.Spine place front)
  (free : fs.node? (place ++ (front ++ [name])) = none) (contents : fs.contents <+: other.contents)
  (nodes : ∀ there, other.node? there =
    if there = place ++ (front ++ [name]) then some .directory else fs.node? there)
include takes within spine free contents nodes

theorem sameFile_of_folder (key : Signature) : SameFile fs other (s.path key) := by
  have folder : name ∈ s.folders signature := within.subset (by simp)
  by_cases through : key.digest ≠ [] ∧ front ++ [name] <+: Key.place key s.config.segmentWidth
  · obtain ⟨digest, inside⟩ := through
    have narrow := Key.narrow_of_folder pos takes.sized folder
    -- the last name of a key has a dot in it, those of directories have none
    have shorter : front ++ [name] ≠ Key.place key s.config.segmentWidth := by
      intro same
      obtain ⟨-, last⟩ := List.append_inj' same rfl
      rw [List.singleton_inj.1 last] at folder
      exact Key.folder_ne_object folder rfl
    rw [path, Key.path_eq pos digest]
    exact root.sameFile_of_new root' grounded (fun _ hn => Key.usable_of_narrow pos digest narrow hn) inside shorter
      spine free nodes
  · exact sameFile_of_hidden pos root root' grounded contents nodes (fun digest inside => through ⟨digest, inside⟩)
      (by simp)

/-- **Nothing is told of a new directory above an object.** -/
theorem alike_of_folder (unique' : other.Unique place) (short : (s.folder signature).bytes.length ≤ pathLimit) :
    s.Alike fs other :=
  alike_of_hidden root root' grounded.unique unique' nodes free (told_folder pos takes short within (by simp))
    (sameFile_of_folder pos root root' grounded takes within spine free contents nodes)

end Folder

/-- **Nothing is told of a temporary file.** -/
theorem alike_of_temporary (unique' : other.Unique place) (contents : fs.contents <+: other.contents)
    {front : List Bytes} {name : Bytes} {number : Nat} (temporary : isTemporary name = true)
    (free : fs.node? (place ++ (front ++ [name])) = none)
    (nodes : ∀ there, other.node? there =
      if there = place ++ (front ++ [name]) then some (.file number) else fs.node? there) : s.Alike fs other := by
  refine alike_of_hidden root root' grounded.unique unique' nodes free (told_temporary temporary front number)
    fun key => sameFile_of_hidden pos root root' grounded contents nodes (fun digest inside => ?_) (by simp)
  exact Key.head?_ne_dot pos digest (inside.subset (by simp)) (head?_of_temporary temporary)

end Hidden

end Store

end ContentChunks
