/-
What the directory of a store looks like when it has some payloads, and that
each change of the store keeps it so.

Main statements:
- `Holds`: the directory of a store has the payloads of a map and nothing else but
  directories above objects.
- `Holds.absent`, `Holds.present`: what the path of an object leads to.
- `publish_new`: an object is published where nothing is in the way of it.
- `Holds.publish`, `Holds.removed`: publishing inserts a payload, removing erases one.
- `Holds.publish_long`: nothing is published where a path is too long, and nothing is lost.
-/
import ContentChunks.Proofs.Growing
import ContentChunks.Proofs.Keys
import ContentChunks.Store.Put
import Mathlib.Data.Finmap

namespace ContentChunks

/-- Payloads by their signatures. -/
abbrev Payloads := Finmap fun _ : Signature => Bytes

namespace Store

open FileSystem (Usable Nowhere pathLimit)

/-- Whether a store may have the payload of a signature. -/
structure Takes (s : Store) (signature : Signature) : Prop where
  sized : signature.Sized
  algorithm : signature.algorithm = s.config.algorithm

/-- The names of the directories above the object of a signature. -/
def folders (s : Store) (signature : Signature) : List Bytes := Key.folders signature s.config.segmentWidth

/-- The name of the object of a signature. -/
def object (s : Store) (signature : Signature) : Bytes := Key.object signature s.config.segmentWidth

/-- The directory of the object of a signature. -/
def folder (s : Store) (signature : Signature) : Path := s.root.extend (s.folders signature)

/-- Whether the paths of objects and of the temporary files beside them are short enough. -/
structure Fits (s : Store) : Prop where
  object : ∀ signature, s.Takes signature → (s.path signature).bytes.length ≤ pathLimit
  temporary : ∀ signature, s.Takes signature →
    ((s.folder signature).push (freshName [] 6)).bytes.length ≤ pathLimit

/-- What stands at names below the root of a store that has the given payloads. -/
def Entry (s : Store) (fs : FileSystem) (m : Payloads) (names : List Bytes) : Node → Prop
  | .directory => ∃ signature, s.Takes signature ∧ names <+: s.folders signature
  | .file number => ∃ signature data, m.lookup signature = some data ∧
      names = s.folders signature ++ [s.object signature] ∧ fs.contents[number]? = some data
  | .link _ => False

/-- Whether the directory of a store has the payloads of a map, and nothing else
but directories above objects. -/
structure Holds (s : Store) (place : Place) (fs : FileSystem) (m : Payloads) : Prop where
  root : fs.DirectoryAt s.root place
  unique : fs.Unique place
  entry : ∀ names node, names ≠ [] → fs.node? (place ++ names) = some node → s.Entry fs m names node
  above : ∀ names name, names ≠ [] → fs.node? (place ++ (names ++ [name])) ≠ none →
    fs.node? (place ++ names) = some .directory
  held : ∀ signature data, m.lookup signature = some data →
    s.Takes signature ∧ Signature.of s.config.algorithm data = signature ∧
      ∃ number, fs.node? (place ++ (s.folders signature ++ [s.object signature])) = some (.file number)

variable {s : Store} {place : Place} {fs : FileSystem} {m : Payloads} {signature : Signature} {data : Bytes}

theorem takes_of_hash {signature : Signature} {data : Bytes}
    (hash : Signature.of s.config.algorithm data = signature) : s.Takes signature := by
  subst hash
  exact ⟨Signature.sized_of _ _, Signature.algorithm_of _ _⟩

/-! ## Keys of a store -/

section Keys

variable (pos : 0 < s.config.segmentWidth) (takes : s.Takes signature)
include pos takes

theorem path_eq_push : s.path signature = (s.folder signature).push (s.object signature) := by
  rw [path, Key.path_eq pos (Key.digest_ne_nil takes.sized), Key.place, Path.extend_concat]
  rfl

theorem path_eq_extend : s.path signature = s.root.extend (s.folders signature ++ [s.object signature]) := by
  rw [path_eq_push pos takes, Path.extend_concat]
  rfl

theorem usable_folders : ∀ name ∈ s.folders signature, Usable name := fun _ h =>
  Key.usable_folder pos takes.sized h

theorem usable_object : Usable (s.object signature) := Key.usable_object pos takes.sized

theorem usable_place : ∀ name ∈ s.folders signature ++ [s.object signature], Usable name := fun _ h =>
  Key.usable_of_mem_place pos takes.sized h

theorem head?_object : (s.object signature).head? ≠ some dot :=
  Key.head?_ne_dot pos (Key.digest_ne_nil takes.sized) (List.mem_append_right _ (List.mem_singleton_self _))

theorem isName_folders : ∀ name ∈ s.folders signature, Path.IsName name := fun name h =>
  (usable_folders pos takes name h).toIsName

theorem length_folder_le (short : (s.path signature).bytes.length ≤ pathLimit) :
    (s.folder signature).bytes.length ≤ pathLimit := by
  have := Path.length_le_push (p := s.folder signature) (usable_object pos takes).whole
  rw [path_eq_push pos takes] at short
  omega

end Keys

theorem eq_of_folders {other : Signature} (pos : 0 < s.config.segmentWidth) (takes : s.Takes signature)
    (takesOther : s.Takes other)
    (same : s.folders other ++ [s.object other] = s.folders signature ++ [s.object signature]) :
    other = signature :=
  Key.eq_of_place pos takes.sized takesOther.sized (by rw [takesOther.algorithm, takes.algorithm]) same

/-! ## Where objects are -/

namespace Holds

variable (h : s.Holds place fs m)
include h

theorem spine {names : List Bytes} {name : Bytes} (node : fs.node? (place ++ (names ++ [name])) ≠ none) :
    fs.Spine place names := by
  induction names using List.reverseRecOn generalizing name with
  | nil => exact FileSystem.spine_nil fs place
  | append_singleton names last ih =>
    have directory := h.above (names ++ [last]) name (by simp) node
    exact FileSystem.spine_concat (ih (by rw [directory]; simp)) directory

theorem clear (signature : Signature) : fs.Clear place (s.folders signature) := by
  intro init within given
  cases found : fs.node? (place ++ init) with
  | none => exact Or.inl rfl
  | some node =>
    have entry := h.entry init node given found
    cases node with
    | directory => exact Or.inr rfl
    | file number =>
      -- an object has another name than any directory
      obtain ⟨other, data, -, same, -⟩ := entry
      have : s.object other ∈ s.folders signature := within.subset (by simp [same])
      exact absurd rfl (Key.folder_ne_object this)
    | link target => exact entry.elim

theorem free (pos : 0 < s.config.segmentWidth) (takes : s.Takes signature) (lacks : m.lookup signature = none) :
    fs.node? (place ++ (s.folders signature ++ [s.object signature])) = none := by
  cases found : fs.node? (place ++ (s.folders signature ++ [s.object signature])) with
  | none => rfl
  | some node =>
    have entry := h.entry _ node (by simp) found
    cases node with
    | directory =>
      obtain ⟨other, -, within⟩ := entry
      have : s.object signature ∈ s.folders other := within.subset (by simp)
      exact absurd rfl (Key.folder_ne_object this)
    | file number =>
      obtain ⟨other, data, has, same, -⟩ := entry
      have := eq_of_folders pos (h.held other data has).1 takes same
      rw [this, has] at lacks
      cases lacks
    | link target => exact entry.elim

/-- The path of an object that the store lacks leads nowhere. -/
theorem absent (pos : 0 < s.config.segmentWidth) (fits : s.Fits) (takes : s.Takes signature)
    (lacks : m.lookup signature = none) {purpose : Purpose} (ordinary : purpose = .look ∨ purpose = .reach) :
    Nowhere (fs.locate purpose (s.path signature)) := by
  have free := h.free pos takes lacks
  have short := fits.object signature takes
  rw [path_eq_extend pos takes] at short ⊢
  refine h.root.locate_absent ordinary (usable_place pos takes) (by simp) short free ?_
  intro init within given
  rcases List.prefix_concat_iff.1 within with rfl | within
  · exact Or.inl free
  · exact h.clear signature init within given

/-- The object of a payload that the store has is a file with the payload. -/
theorem present (pos : 0 < s.config.segmentWidth) (fits : s.Fits) (has : m.lookup signature = some data) :
    fs.DirectoryAt (s.folder signature) (place ++ s.folders signature) ∧
      ∃ number, fs.node? (place ++ s.folders signature ++ [s.object signature]) = some (.file number) ∧
        fs.contents[number]? = some data := by
  obtain ⟨takes, -, number, found⟩ := h.held signature data has
  refine ⟨?_, number, by rw [List.append_assoc, found], ?_⟩
  · have spine := h.spine (by rw [found]; simp)
    exact h.root.extend (usable_folders pos takes) (length_folder_le pos takes (fits.object signature takes)) spine
  · obtain ⟨other, payload, hasOther, same, content⟩ := h.entry _ _ (by simp) found
    have := eq_of_folders pos (h.held other payload hasOther).1 takes same
    rw [← this, has] at hasOther
    rw [content, ← hasOther]

theorem isFile_path (pos : 0 < s.config.segmentWidth) (fits : s.Fits) (takes : s.Takes signature) :
    fs.isFile (s.path signature) = (m.lookup signature).isSome := by
  cases found : m.lookup signature with
  | none => exact FileSystem.isFile_nowhere (h.absent pos fits takes found (Or.inr rfl))
  | some data =>
    obtain ⟨above, number, node, -⟩ := h.present pos fits found
    have short := fits.object signature takes
    rw [path_eq_push pos takes] at short ⊢
    exact above.isFile_file (usable_object pos takes) short node

theorem contentAt_path (pos : 0 < s.config.segmentWidth) (fits : s.Fits) (takes : s.Takes signature) :
    fs.contentAt (s.path signature) =
      match m.lookup signature with
      | some data => .ok data
      | none => .error .notFound := by
  cases found : m.lookup signature with
  | none => exact FileSystem.contentAt_nowhere (h.absent pos fits takes found (Or.inr rfl))
  | some data =>
    obtain ⟨above, number, node, content⟩ := h.present pos fits found
    have short := fits.object signature takes
    rw [path_eq_push pos takes] at short ⊢
    rw [above.contentAt_file (usable_object pos takes) short node, FileSystem.content, content]
    rfl

end Holds

theorem Holds.congr {last : FileSystem} (h : s.Holds place fs m) (root : last.DirectoryAt s.root place)
    (unique : last.Unique place)
    (nodes : ∀ names, names ≠ [] → last.node? (place ++ names) = fs.node? (place ++ names))
    (contents : ∀ names number data, names ≠ [] → fs.node? (place ++ names) = some (.file number) →
      fs.contents[number]? = some data → last.contents[number]? = some data) : s.Holds place last m := by
  refine ⟨root, unique, ?_, ?_, ?_⟩
  · intro names node given found
    rw [nodes names given] at found
    have entry := h.entry names node given found
    cases node with
    | directory => exact entry
    | file number =>
      obtain ⟨signature, data, has, same, content⟩ := entry
      exact ⟨signature, data, has, same, contents names number data given found content⟩
    | link target => exact entry
  · intro names name given found
    rw [nodes _ (by simp)] at found
    rw [nodes names given]
    exact h.above names name given found
  · intro signature data has
    obtain ⟨takes, hash, number, node⟩ := h.held signature data has
    exact ⟨takes, hash, number, by rw [nodes _ (by simp), node]⟩

/-! ## Removing an object -/

theorem entry_erase {names : List Bytes} {node : Node} (h : s.Entry fs m names node)
    (other : names ≠ s.folders signature ++ [s.object signature]) : s.Entry fs (m.erase signature) names node := by
  cases node with
  | directory => exact h
  | file number =>
    obtain ⟨here, data, has, same, content⟩ := h
    refine ⟨here, data, ?_, same, content⟩
    rw [Finmap.lookup_erase_ne, has]
    rintro rfl
    exact other same
  | link target => exact h

/-- When the file of an object is removed, its payload is erased and nothing else. -/
theorem Holds.removed (h : s.Holds place fs m) (pos : 0 < s.config.segmentWidth)
    (has : m.lookup signature = some data) :
    s.Holds place (fs.drop (place ++ (s.folders signature ++ [s.object signature]))) (m.erase signature) := by
  obtain ⟨takes, -, number, file⟩ := h.held signature data has
  have given : place ++ (s.folders signature ++ [s.object signature]) ≠ [] := by simp
  refine ⟨h.root.mono (FileSystem.keeps_drop given file), h.unique.drop, ?_, ?_, ?_⟩
  · intro names node filled found
    rw [FileSystem.node?_drop given] at found
    split at found
    · cases found
    · rename_i other
      exact entry_erase (h.entry names node filled found) fun same => other (by rw [same])
  · intro names name filled found
    rw [FileSystem.node?_drop given] at found ⊢
    split at found
    · exact absurd rfl found
    · have directory := h.above names name filled found
      rw [if_neg, directory]
      intro same
      rw [same, file] at directory
      cases directory
  · intro other payload hasOther
    by_cases same : other = signature
    · rw [same, Finmap.lookup_erase] at hasOther
      cases hasOther
    · rw [Finmap.lookup_erase_ne same] at hasOther
      obtain ⟨takesOther, hash, count, node⟩ := h.held other payload hasOther
      refine ⟨takesOther, hash, count, ?_⟩
      rw [FileSystem.node?_drop given, if_neg, node]
      intro clash
      exact same (eq_of_folders pos takes takesOther (List.append_cancel_left clash))

/-! ## Making directories -/

theorem Holds.made (h : s.Holds place fs m) (takes : s.Takes signature) {init : List Bytes} {name : Bytes}
    (within : init ++ [name] <+: s.folders signature) (spine : fs.Spine place init)
    (free : fs.node? (place ++ (init ++ [name])) = none) :
    s.Holds place (fs.put (place ++ (init ++ [name])) .directory) m := by
  have given : place ++ (init ++ [name]) ≠ [] := by simp
  have keeps : fs.Keeps (fs.put (place ++ (init ++ [name])) .directory) := FileSystem.keeps_put given free
  refine ⟨h.root.mono keeps, h.unique.put (by simp), ?_, ?_, ?_⟩
  · intro names node filled found
    rw [FileSystem.node?_put given] at found
    split at found
    · rename_i same
      obtain rfl := Option.some.inj found
      exact ⟨signature, takes, by rwa [List.append_cancel_left same]⟩
    · exact h.entry names node filled found
  · intro names last filled found
    rw [FileSystem.node?_put given] at found
    split at found
    · rename_i same
      obtain ⟨rfl, -⟩ := List.append_inj' (List.append_cancel_left same) rfl
      exact keeps _ _ (by simp) (spine names (List.prefix_refl _) filled)
    · exact keeps _ _ (by simp) (h.above names last filled found)
  · intro other payload has
    obtain ⟨takesOther, hash, number, node⟩ := h.held other payload has
    refine ⟨takesOther, hash, number, ?_⟩
    rw [FileSystem.node?_put given, if_neg, node]
    intro clash
    rw [clash, free] at node
    cases node

theorem Holds.grown {last : FileSystem} (h : s.Holds place fs m) (takes : s.Takes signature)
    (grown : FileSystem.Grown place (s.folders signature) fs last) : s.Holds place last m := by
  induction grown with
  | same => exact h
  | made _ within spine free ih => exact ih.made takes within spine free

/-! ## Publishing an object -/

theorem freshName_eq {names : List Bytes} {n : Nat} (free : temporary ++ List.replicate n 0x61 ∉ names) :
    freshName names n = temporary ++ List.replicate n 0x61 := by
  rw [freshName]
  simp [free]

theorem usable_temporary : Usable (freshName [] 6) := by
  rw [freshName_eq (by simp)]
  exact ⟨⟨by decide, by decide, by decide, by decide⟩, by decide, by decide⟩

theorem head?_temporary : (freshName [] 6).head? = some dot := by
  rw [freshName_eq (by simp)]
  rfl

theorem object_ne_temporary (pos : 0 < s.config.segmentWidth) (takes : s.Takes signature) :
    s.object signature ≠ freshName [] 6 := by
  intro same
  have := head?_object pos takes
  rw [same] at this
  exact this head?_temporary

/-- The directory of an object, as its path tells it: a payload is published by way of it. -/
def plainFolder (s : Store) (signature : Signature) : Path := (s.folder signature).trimmed

/-- The directory of a store, as the path of an object tells it. -/
def top (s : Store) (signature : Signature) : Path :=
  if s.folders signature = [] then s.root.trimmed else s.root

theorem directoryAt_top (root : fs.DirectoryAt s.root place) (signature : Signature) :
    fs.DirectoryAt (s.top signature) place := by
  unfold top
  split
  · exact root.trimmed
  · exact root

theorem length_plainFolder_le (s : Store) (signature : Signature) :
    (s.plainFolder signature).bytes.length ≤ (s.folder signature).bytes.length :=
  Path.length_trimmed_le _

section PlainFolder

variable (given : s.root.bytes ≠ []) (pos : 0 < s.config.segmentWidth) (takes : s.Takes signature)
include given pos takes

theorem parent?_path : (s.path signature).parent? = some (s.plainFolder signature) := by
  rw [path_eq_extend pos takes]
  exact Path.parent?_extend given fun n hn => (usable_place pos takes n hn).toIsName

theorem plainFolder_eq : s.plainFolder signature = (s.top signature).extend (s.folders signature) := by
  have isName := isName_folders pos takes
  unfold plainFolder folder top
  rcases List.eq_nil_or_concat (s.folders signature) with noFolders | ⟨front, last, hfolders⟩
  · rw [if_pos noFolders, noFolders, Path.extend_nil, Path.extend_nil]
  · rw [List.concat_eq_append] at hfolders
    rw [hfolders] at isName ⊢
    have above := Path.extend_ne_nil given fun n hn => isName n (List.mem_append_left _ hn)
    rw [if_neg (by simp), Path.extend_concat, Path.trimmed_push above (isName last (by simp))]

theorem length_temporary_le (short : ((s.folder signature).push (freshName [] 6)).bytes.length ≤ pathLimit) :
    ((s.plainFolder signature).push (freshName [] 6)).bytes.length ≤ pathLimit :=
  Nat.le_trans (Path.length_push_trimmed_le (Path.extend_ne_nil given (isName_folders pos takes))
    usable_temporary.toIsName) short

end PlainFolder

theorem Holds.exists_key (h : s.Holds place fs m) {names : List Bytes} {node : Node}
    (found : fs.node? (place ++ names) = some node) {name : Bytes} (hname : name ∈ names) :
    ∃ other, s.Takes other ∧ name ∈ Key.place other s.config.segmentWidth := by
  have entry := h.entry names node (List.ne_nil_of_mem hname) found
  cases node with
  | directory =>
    obtain ⟨other, takes, within⟩ := entry
    exact ⟨other, takes, List.mem_append_left _ (within.subset hname)⟩
  | file number =>
    obtain ⟨other, data, has, same, -⟩ := entry
    exact ⟨other, (h.held other data has).1, by rwa [same] at hname⟩
  | link target => exact entry.elim

theorem Holds.head?_name (h : s.Holds place fs m) (pos : 0 < s.config.segmentWidth) {names : List Bytes}
    {node : Node} (found : fs.node? (place ++ names) = some node) {name : Bytes} (hname : name ∈ names) :
    name.head? ≠ some dot := by
  obtain ⟨other, takes, hkey⟩ := h.exists_key found hname
  exact Key.head?_ne_dot pos (Key.digest_ne_nil takes.sized) hkey

theorem Holds.free_temporary (h : s.Holds place fs m) (pos : 0 < s.config.segmentWidth) (names more : List Bytes) :
    fs.node? (place ++ (names ++ freshName [] 6 :: more)) = none := by
  cases found : fs.node? (place ++ (names ++ freshName [] 6 :: more)) with
  | none => rfl
  | some node => exact absurd head?_temporary (h.head?_name pos found (by simp))

/-- Where nothing has the first name for a temporary file, that is its name. -/
theorem temporaryName_eq {p : Path} {names : List Bytes} (unique : fs.Unique place)
    (reached : ∀ there, fs.reach p = .ok there → there = place ++ names)
    (free : ∀ more, fs.node? (place ++ (names ++ freshName [] 6 :: more)) = none) :
    temporaryName fs p = freshName [] 6 := by
  have name : freshName [] 6 = temporary ++ List.replicate 6 0x61 := freshName_eq (by simp)
  rw [name] at free ⊢
  unfold temporaryName
  cases found : fs.reach p with
  | error fault => exact name
  | ok there =>
    obtain rfl := reached there found
    refine freshName_eq fun listed => ?_
    obtain ⟨⟨rest, node⟩, below, head⟩ := List.mem_filterMap.1 listed
    obtain ⟨more, rfl⟩ := List.head?_eq_some_iff.1 head
    obtain ⟨-, node⟩ := FileSystem.mem_below.1 below
    rw [List.append_assoc] at node
    obtain ⟨-, there⟩ := (FileSystem.mem_below_iff unique).1 (FileSystem.mem_below.2 ⟨by simp, node⟩)
    rw [free more] at there
    cases there

theorem entry_insert {last : FileSystem} {names : List Bytes} {node : Node} (h : s.Entry fs m names node)
    (lacks : m.lookup signature = none) (contents : last.contents = fs.contents ++ [data]) :
    s.Entry last (m.insert signature data) names node := by
  cases node with
  | directory => exact h
  | file number =>
    obtain ⟨other, payload, has, same, content⟩ := h
    refine ⟨other, payload, ?_, same, ?_⟩
    · rw [Finmap.lookup_insert_of_ne, has]
      rintro rfl
      rw [lacks] at has
      cases has
    · obtain ⟨within, -⟩ := List.getElem?_eq_some_iff.1 content
      rw [contents, List.getElem?_append_left within, content]
  | link target => exact h

theorem Holds.inserted {last : FileSystem} (h : s.Holds place fs m) (pos : 0 < s.config.segmentWidth)
    (takes : s.Takes signature) (lacks : m.lookup signature = none)
    (hash : Signature.of s.config.algorithm data = signature) (spine : fs.Spine place (s.folders signature))
    (keeps : fs.Keeps last) (unique : last.Unique place) (contents : last.contents = fs.contents ++ [data])
    (nodes : ∀ there, last.node? there =
      if there = place ++ (s.folders signature ++ [s.object signature]) then some (.file fs.contents.length)
      else fs.node? there) : s.Holds place last (m.insert signature data) := by
  refine ⟨h.root.mono keeps, unique, ?_, ?_, ?_⟩
  · intro names node filled found
    rw [nodes] at found
    split at found
    · rename_i same
      obtain rfl := Option.some.inj found
      refine ⟨signature, data, Finmap.lookup_insert m, List.append_cancel_left same, ?_⟩
      rw [contents]
      simp
    · exact entry_insert (h.entry names node filled found) lacks contents
  · intro names name filled found
    rw [nodes] at found
    split at found
    · rename_i same
      obtain ⟨rfl, -⟩ := List.append_inj' (List.append_cancel_left same) rfl
      exact keeps _ _ (by simp) (spine _ (List.prefix_refl _) filled)
    · exact keeps _ _ (by simp) (h.above names name filled found)
  · intro other payload has
    by_cases same : other = signature
    · rw [same, Finmap.lookup_insert] at has
      obtain rfl := Option.some.inj has
      subst same
      exact ⟨takes, hash, fs.contents.length, by rw [nodes, if_pos rfl]⟩
    · rw [Finmap.lookup_insert_of_ne m same] at has
      obtain ⟨takesOther, hashOther, number, node⟩ := h.held other payload has
      refine ⟨takesOther, hashOther, number, ?_⟩
      rw [nodes, if_neg, node]
      intro clash
      exact same (eq_of_folders pos takes takesOther (List.append_cancel_left clash))

/-- The directories above an object are made, if nothing is in their way and their own path is short enough. -/
theorem folder_made (pos : 0 < s.config.segmentWidth) (takes : s.Takes signature) (root : fs.DirectoryAt s.root place)
    (unique : fs.Unique place) (solid : fs.Solid place) (clear : fs.Clear place (s.folders signature))
    (quiet : ∀ more, fs.node? (place ++ (s.folders signature ++ freshName [] 6 :: more)) = none)
    (short : (s.plainFolder signature).bytes.length ≤ pathLimit) :
    ∃ made, fs.makeDirectories (s.plainFolder signature) = (.ok (), made) ∧
      FileSystem.Grown place (s.folders signature) fs made ∧ made.Spine place (s.folders signature) ∧
      made.DirectoryAt (s.plainFolder signature) (place ++ s.folders signature) ∧
      temporaryName fs (s.plainFolder signature) = freshName [] 6 := by
  have usable := usable_folders pos takes
  have top := directoryAt_top root signature
  rw [plainFolder_eq root.sound.given pos takes] at short ⊢
  obtain ⟨made, ran, grown, spine⟩ := top.makeDirectories usable short clear
  refine ⟨made, ran, grown, spine, (top.mono grown.keeps).extend usable short spine, ?_⟩
  exact temporaryName_eq unique (fun there => top.place_of_reach solid (isName_folders pos takes)) quiet

theorem Holds.folder_made (h : s.Holds place fs m) (pos : 0 < s.config.segmentWidth) (takes : s.Takes signature)
    (short : (s.plainFolder signature).bytes.length ≤ pathLimit) :
    ∃ made, fs.makeDirectories (s.plainFolder signature) = (.ok (), made) ∧ fs.Grows made ∧ s.Holds place made m ∧
      made.Spine place (s.folders signature) ∧
      made.DirectoryAt (s.plainFolder signature) (place ++ s.folders signature) ∧
      temporaryName fs (s.plainFolder signature) = freshName [] 6 := by
  obtain ⟨made, ran, grown, spine, above, named⟩ := Store.folder_made pos takes h.root h.unique
    (fun names _ given found => h.entry names _ given found) (h.clear signature) (h.free_temporary pos _) short
  exact ⟨made, ran, grown.grows, h.grown takes grown, spine, above, named⟩

/-- What is left to do when the directories above an object are made. -/
theorem publish_eq (given : s.root.bytes ≠ []) (pos : 0 < s.config.segmentWidth) (takes : s.Takes signature)
    {made : FileSystem} (ran : fs.makeDirectories (s.plainFolder signature) = (.ok (), made))
    (named : temporaryName fs (s.plainFolder signature) = freshName [] 6) (data : Bytes) :
    Store.publish fs (s.path signature) data =
      let temp := (s.plainFolder signature).push (freshName [] 6)
      match made.steps [.makeFile temp, .append temp data, .sync temp, .move temp (s.path signature),
        .syncDirectory (s.plainFolder signature)] with
      | (.ok (), last) => (.ok (), last)
      | (.error fault, last) =>
        (.error (.os fault), match last.unlink temp with
          | .ok last => last
          | .error _ => last) := by
  rw [publish_eq_steps]
  unfold publishSteps
  rw [parent?_path given pos takes]
  simp only [named, List.append_assoc, List.cons_append, List.nil_append, List.map_cons, List.map_nil]
  rw [FileSystem.steps_append]
  unfold FileSystem.makeDirectories at ran
  generalize fs.steps (fs.directorySteps (s.plainFolder signature)) = result at ran ⊢
  subst ran
  rfl

/-- Where the directories above an object are made and nothing is at its place, the object is published. -/
theorem publish_new (pos : 0 < s.config.segmentWidth) (takes : s.Takes signature) {made : FileSystem}
    (root : made.DirectoryAt s.root place) (ran : fs.makeDirectories (s.plainFolder signature) = (.ok (), made))
    (spine : made.Spine place (s.folders signature))
    (above : made.DirectoryAt (s.plainFolder signature) (place ++ s.folders signature))
    (named : temporaryName fs (s.plainFolder signature) = freshName [] 6)
    (short : (s.path signature).bytes.length ≤ pathLimit)
    (shortTemporary : ((s.plainFolder signature).push (freshName [] 6)).bytes.length ≤ pathLimit)
    (free : made.node? (place ++ (s.folders signature ++ [s.object signature])) = none)
    (freeTemporary : made.node? (place ++ (s.folders signature ++ [freshName [] 6])) = none) (data : Bytes) :
    ∃ last, Store.publish fs (s.path signature) data = (.ok (), last) ∧ made.Keeps last ∧
      last.contents = made.contents ++ [data] ∧
      (∀ there, last.node? there = if there = place ++ (s.folders signature ++ [s.object signature]) then
        some (.file made.contents.length) else made.node? there) ∧
      (made.Unique place → last.Unique place) := by
  have target : made.DirectoryAt (s.folder signature) (place ++ s.folders signature) :=
    root.extend (usable_folders pos takes) (length_folder_le pos takes short) spine
  rw [publish_eq root.sound.given pos takes ran named]
  rw [path_eq_push pos takes] at short ⊢
  rw [← List.append_assoc] at free freeTemporary
  obtain ⟨last, wrote, keeps, contents, nodes, unique⟩ := above.write usable_temporary shortTemporary freeTemporary
    target (usable_object pos takes) short free (object_ne_temporary pos takes) data
  exact ⟨last, by simp only [wrote], keeps, contents, by simpa only [List.append_assoc] using nodes, unique rfl⟩

theorem Holds.written_removed (h : s.Holds place fs m) {names : List Bytes} (given : names ≠ [])
    (free : fs.node? (place ++ names) = none) (data : Bytes) :
    s.Holds place ((fs.written (place ++ names) data).drop (place ++ names)) m := by
  have new : place ++ names ≠ [] := by simp [given]
  have keeps := FileSystem.keeps_written new free data
  have file : (fs.written (place ++ names) data).node? (place ++ names) = some (.file fs.contents.length) := by
    rw [FileSystem.node?_written new, if_pos rfl]
  have root := h.root.mono (keeps.trans (FileSystem.keeps_drop new file))
  refine h.congr root (h.unique.written given data).drop ?_ ?_
  · intro others _
    rw [FileSystem.node?_drop new, FileSystem.node?_written new]
    split
    · rename_i same
      rw [same, free]
    · rfl
  · intro others number payload _ _ content
    obtain ⟨within, -⟩ := List.getElem?_eq_some_iff.1 content
    show (fs.written (place ++ names) data).contents[number]? = some payload
    rw [FileSystem.contents_written, List.getElem?_append_left within, content]

theorem publishOn_far (given : s.root.bytes ≠ []) (pos : 0 < s.config.segmentWidth) (takes : s.Takes signature)
    (far : pathLimit < (s.plainFolder signature).bytes.length) (disk : FileSystem.Disk) (data : Bytes) :
    ∃ fault, publishOn disk fs (s.path signature) data = (.error fault, fs) := by
  have named : temporaryName fs (s.plainFolder signature) = freshName [] 6 := by
    obtain ⟨fault, refused⟩ := FileSystem.reach_long far fs
    rw [temporaryName, refused]
  have farther := Path.length_le_push (p := s.plainFolder signature) usable_temporary.whole
  obtain ⟨_, kept⟩ := FileSystem.unlink_long (Nat.lt_of_lt_of_le far farther) fs
  unfold publishOn publishSteps
  rw [parent?_path given pos takes]
  simp only [named, List.append_assoc]
  obtain ⟨fault, ran⟩ := FileSystem.stepsOn_long far disk 0 _ fs
  refine ⟨.os fault, ?_⟩
  rw [ran]
  simp only [kept]

/-- **Nothing is published where a path is too long**: at most the directories
above the object are made. -/
theorem Holds.publish_long (h : s.Holds place fs m) (pos : 0 < s.config.segmentWidth) (takes : s.Takes signature)
    (long : pathLimit < (s.path signature).bytes.length ∨
      pathLimit < ((s.plainFolder signature).push (freshName [] 6)).bytes.length) (data : Bytes) :
    ∃ fault last, Store.publish fs (s.path signature) data = (.error fault, last) ∧ s.Holds place last m := by
  have given := h.root.sound.given
  by_cases far : pathLimit < (s.plainFolder signature).bytes.length
  · obtain ⟨fault, refused⟩ := publishOn_far given pos takes far .plain data
    exact ⟨fault, fs, refused, h⟩
  obtain ⟨made, ran, -, hmade, -, above, named⟩ := h.folder_made pos takes (Nat.not_lt.1 far)
  rw [publish_eq given pos takes ran named]
  by_cases farther : pathLimit < ((s.plainFolder signature).push (freshName [] 6)).bytes.length
  · obtain ⟨fault, refused⟩ := FileSystem.makeFile_long farther made
    obtain ⟨_, kept⟩ := FileSystem.unlink_long farther made
    exact ⟨.os fault, made, by simp only [FileSystem.steps_cons, FileSystem.step, refused, kept], hmade⟩
  · have short := Nat.not_lt.1 farther
    have free := hmade.free_temporary pos (s.folders signature) []
    have removed := hmade.written_removed (by simp) free data
    rw [← List.append_assoc] at free removed
    have new : place ++ s.folders signature ++ [freshName [] 6] ≠ [] := by simp
    obtain ⟨fault, refused⟩ := above.write_long usable_temporary short free (long.resolve_right farther) data
    have dropped := (above.mono (FileSystem.keeps_written new free data)).unlink_file usable_temporary short
      (by rw [FileSystem.node?_written new, if_pos rfl])
    refine ⟨.os fault, _, ?_, removed⟩
    simp only [refused, dropped]

/-- **Publishing inserts a payload**, and leaves all else as it is. -/
theorem Holds.publish (h : s.Holds place fs m) (pos : 0 < s.config.segmentWidth) (takes : s.Takes signature)
    (short : (s.path signature).bytes.length ≤ pathLimit)
    (shortTemporary : ((s.plainFolder signature).push (freshName [] 6)).bytes.length ≤ pathLimit)
    (lacks : m.lookup signature = none) (hash : Signature.of s.config.algorithm data = signature) :
    ∃ last, Store.publish fs (s.path signature) data = (.ok (), last) ∧
      s.Holds place last (m.insert signature data) ∧ fs.Grows last := by
  obtain ⟨made, ran, grows, hmade, spine, above, named⟩ :=
    h.folder_made pos takes (Nat.le_trans (s.length_plainFolder_le signature) (length_folder_le pos takes short))
  have free := hmade.free pos takes lacks
  obtain ⟨last, done, keeps, contents, nodes, unique⟩ := publish_new pos takes hmade.root ran spine above named short
    shortTemporary free (hmade.free_temporary pos _ []) data
  exact ⟨last, done, hmade.inserted pos takes lacks hash spine keeps (unique hmade.unique) contents nodes,
    grows.trans (FileSystem.grows_of_new free ⟨[data], contents.symm⟩ nodes)⟩

end Store

end ContentChunks
