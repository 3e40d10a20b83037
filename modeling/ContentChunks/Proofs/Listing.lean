/-
What a store lists, whatever is below its root. Strangers may have put files and
directories there, at any depth and of any names, but no links; every directory
is short enough of path to be read.

Main statements:
- `FileSystem.Tree.isFile_iff`, `FileSystem.Tree.unlink_eq_ok`: where files are in such a tree, and that they
  are what can be removed.
- `Store.list_eq_map`: there is one item for each file that is not temporary.
- `Store.list_agrees`: the signatures that are listed are those that the store
  contains, but for those whose objects have paths that are too long.
-/
import ContentChunks.Proofs.KeyPaths
import ContentChunks.Proofs.Resolving
import ContentChunks.Proofs.StoreMap

namespace ContentChunks

namespace FileSystem

/-! ## Trees -/

instance (name : Bytes) : Decidable (Usable name) :=
  decidable_of_iff ((name ≠ [] ∧ slash ∉ name ∧ name ≠ [dot] ∧ name ≠ [dot, dot]) ∧ 0 ∉ name ∧ name.length ≤ nameLimit)
    ⟨fun ⟨⟨filled, whole, notHere, notUp⟩, noZero, brief⟩ => ⟨⟨filled, whole, notHere, notUp⟩, noZero, brief⟩,
      fun h => ⟨⟨h.filled, h.whole, h.notHere, h.notUp⟩, h.noZero, h.brief⟩⟩

instance (fs : FileSystem) (place : Place) : Decidable (fs.Unique place) := inferInstanceAs (Decidable (List.Nodup _))

/-- Whether there are directories and files below a place, and nothing else: each
has names that an entry may have, and is in a directory. -/
structure Tree (fs : FileSystem) (place : Place) : Prop where
  unique : fs.Unique place
  usable : ∀ e ∈ fs.below place, ∀ name ∈ e.1, Usable name
  above : ∀ e ∈ fs.below place, e.1.length ≠ 1 → (e.1.dropLast, .directory) ∈ fs.below place
  solid : ∀ e ∈ fs.below place, ∀ target, e.2 ≠ .link target

namespace Tree

variable {fs : FileSystem} {place : Place} {names : List Bytes} {node : Node} {number : Nat} {p : Path}
  (tree : fs.Tree place)
include tree

theorem noLinks : fs.Solid place := fun names target given found =>
  tree.solid (names, .link target) ((mem_below_iff tree.unique).2 ⟨given, found⟩) target rfl

theorem spine (listed : (names, node) ∈ fs.below place) : fs.Spine place names.dropLast := by
  induction names using List.reverseRecOn generalizing node with
  | nil => exact spine_nil fs place
  | append_singleton names last ih =>
    rw [List.dropLast_concat]
    cases names.eq_nil_or_concat with
    | inl empty =>
      rw [empty]
      exact spine_nil fs place
    | inr more =>
      obtain ⟨front, name, rfl⟩ := more
      have directory := tree.above _ listed (by simp)
      rw [List.dropLast_concat] at directory
      have before := ih directory
      rw [List.concat_eq_append, List.dropLast_concat] at before
      rw [List.concat_eq_append] at directory ⊢
      exact spine_concat before ((mem_below_iff tree.unique).1 directory).2

theorem directoryAt (root : fs.DirectoryAt p place) (usable : ∀ n ∈ names, Usable n) (given : names ≠ [])
    (listed : (names, .file number) ∈ fs.below place) (short : (p.extend names).bytes.length ≤ pathLimit) :
    ∃ front last, names = front ++ [last] ∧ fs.DirectoryAt (p.extend front) (place ++ front) ∧ Usable last ∧
      fs.node? (place ++ front ++ [last]) = some (.file number) := by
  obtain ⟨front, last, rfl⟩ := List.eq_nil_or_concat names |>.resolve_left given
  rw [List.concat_eq_append] at *
  have spine := tree.spine listed
  have found := ((mem_below_iff tree.unique).1 listed).2
  have usableFront := fun n hn => usable n (List.mem_append_left _ hn)
  have usableLast := usable last (by simp)
  rw [List.dropLast_concat] at spine
  rw [Path.extend_concat] at short
  have shortFront := Path.length_le_push (p := p.extend front) usableLast.whole
  exact ⟨front, last, rfl, root.extend usableFront (by omega) spine, usableLast, by rwa [List.append_assoc]⟩

/-- **Where the files are**: names after the path of the directory lead to a file
if one is there, unless the path is too long. -/
theorem isFile_iff (root : fs.DirectoryAt p place) (usable : ∀ n ∈ names, Usable n) (given : names ≠ []) :
    fs.isFile (p.extend names) = true ↔
      (∃ number, (names, .file number) ∈ fs.below place) ∧ (p.extend names).bytes.length ≤ pathLimit := by
  constructor
  · intro isFile
    obtain ⟨there, number, located, found⟩ := isFile_iff_found.1 isFile
    obtain ⟨rfl, -⟩ := root.place_of_locate tree.noLinks (.inr rfl) (fun n hn => (usable n hn).toIsName) given located
    exact ⟨⟨number, (mem_below_iff tree.unique).2 ⟨given, found⟩⟩, (sound_of_locate (.inr rfl) located).short⟩
  · intro ⟨⟨number, listed⟩, short⟩
    obtain ⟨front, last, rfl, above, usableLast, found⟩ := tree.directoryAt root usable given listed short
    rw [Path.extend_concat] at short ⊢
    exact above.isFile_file usableLast short found

/-- **What can be removed** are the files, each from its place. -/
theorem unlink_eq_ok (root : fs.DirectoryAt p place) (usable : ∀ n ∈ names, Usable n) (given : names ≠ [])
    {last : FileSystem} :
    fs.unlink (p.extend names) = .ok last ↔ fs.isFile (p.extend names) = true ∧ last = fs.drop (place ++ names) := by
  rw [tree.isFile_iff root usable given]
  constructor
  · intro removed
    have closed : (p.extend names).Closed := by
      obtain ⟨front, name, rfl⟩ := List.eq_nil_or_concat names |>.resolve_left given
      rw [List.concat_eq_append, Path.extend_concat]
      exact Path.closed_push (usable name (by simp)).toIsName _
    obtain ⟨destination, found, dropped⟩ := bind_eq_ok.1 removed
    rw [entry_closed closed] at found
    cases destination with
    | missing directory name => cases dropped
    | found there =>
      obtain ⟨rfl, filled⟩ := root.place_of_locate tree.noLinks (.inl rfl) (fun n hn => (usable n hn).toIsName) given found
      have short := (sound_of_locate (.inl rfl) found).short
      dsimp only at dropped
      split at dropped
      · cases dropped
      · split at dropped
        · cases dropped
        · rename_i other _
          cases dropped
          cases node : fs.node? (place ++ names) with
          | none => exact absurd node filled
          | some item =>
            cases item with
            | directory => exact absurd node other
            | file number => exact ⟨⟨⟨number, (mem_below_iff tree.unique).2 ⟨given, node⟩⟩, short⟩, rfl⟩
            | link target => exact absurd node (tree.noLinks names target given)
  · rintro ⟨⟨⟨number, listed⟩, short⟩, rfl⟩
    obtain ⟨front, last, rfl, above, usableLast, found⟩ := tree.directoryAt root usable given listed short
    rw [Path.extend_concat] at short ⊢
    rw [above.unlink_file usableLast short found, List.append_assoc]

end Tree

end FileSystem

/-! ## Lists -/

namespace Store

open FileSystem (pathLimit outOfReach Usable)

variable {s : Store} {place : Place} {fs : FileSystem}

/-- The names of the files below a place that are not temporary. -/
def filesBelow (fs : FileSystem) (place : Place) : List Place :=
  (fs.below place).filterMap fun (names, node) =>
    match node with
    | .file _ => if isTemporary (names.getLast?.getD []) then none else some names
    | _ => none

theorem mem_filesBelow {names : Place} : names ∈ filesBelow fs place ↔
    (∃ number, (names, .file number) ∈ fs.below place) ∧ isTemporary (names.getLast?.getD []) = false := by
  simp only [filesBelow, List.mem_filterMap, Prod.exists]
  constructor
  · intro ⟨names, node, listed, told⟩
    cases node with
    | file number =>
      dsimp only at told
      split at told
      · cases told
      · rename_i lasting
        cases told
        exact ⟨⟨number, listed⟩, Bool.eq_false_iff.2 lasting⟩
    | directory => cases told
    | link target => cases told
  · intro ⟨⟨number, listed⟩, lasting⟩
    exact ⟨names, _, listed, by simp [lasting]⟩

theorem signature_join_iff {names : Place} {signature : Signature} (pos : 0 < s.config.segmentWidth)
    (isName : ∀ n ∈ names, Path.IsName n) :
    Key.signature ⟨Path.join names⟩ s.config.algorithm s.config.segmentWidth = .ok signature ↔
      s.Takes signature ∧ names = s.folders signature ++ [s.object signature] := by
  rw [Key.signature_eq_ok_iff, Path.components_join isName]
  constructor
  · intro ⟨_, algorithm, sized, same⟩
    rw [Key.components_path pos sized] at same
    exact ⟨⟨sized, algorithm⟩, List.map_injective_iff.2 (fun _ _ => Path.Component.name.inj) same⟩
  · intro ⟨takes, same⟩
    refine ⟨pos, takes.algorithm, takes.sized, ?_⟩
    rw [Key.components_path pos takes.sized, same]
    rfl

theorem nodup_filesBelow (tree : fs.Tree place) : (filesBelow fs place).Nodup := by
  have apart : (fs.below place).Pairwise fun e e' => e.1 ≠ e'.1 := List.pairwise_map.1 tree.unique
  have named {names name : Place} {node : Node} (told : (match node with
      | .file _ => if isTemporary (names.getLast?.getD []) then none else some names
      | _ => none) = some name) : names = name := by
    split at told
    · split at told
      · cases told
      · exact Option.some.inj told
    · cases told
  refine List.pairwise_filterMap.2 (apart.imp fun {e e'} differ name told name' told' => ?_)
  rw [← named told, ← named told']
  exact differ

/-- What a file's names are read as, if they are read as a signature. -/
theorem told_iff (tree : fs.Tree place) (pos : 0 < s.config.segmentWidth) {names : Place} {signature : Signature}
    (mem : names ∈ filesBelow fs place) :
    (Key.signature ⟨Path.join names⟩ s.config.algorithm s.config.segmentWidth).toOption = some signature ↔
      s.Takes signature ∧ names = s.folders signature ++ [s.object signature] := by
  obtain ⟨⟨number, listed⟩, -⟩ := mem_filesBelow.1 mem
  rw [← signature_join_iff pos fun n hn => (tree.usable _ listed n hn).toIsName]
  cases Key.signature ⟨Path.join names⟩ s.config.algorithm s.config.segmentWidth <;> simp [Except.toOption]

section

variable (root : fs.DirectoryAt s.root place) (tree : fs.Tree place)
  (near : ∀ names, (names, .directory) ∈ fs.below place → outOfReach s.root names = false)
include root tree near

/-- **There is one item for each file** that is not temporary, read or malformed. -/
theorem list_eq_map : s.list fs = (filesBelow fs place).map fun names =>
    Key.signature ⟨Path.join names⟩ s.config.algorithm s.config.segmentWidth := by
  rw [list_eq_filterMap root fun names node listed => ⟨?_, ?_⟩, filesBelow, List.map_filterMap]
  · refine List.filterMap_congr fun (names, node) listed => ?_
    cases node with
    | directory => rfl
    | file number =>
      dsimp only [item?]
      split <;> rfl
    | link target => rfl
  · intro ⟨deep, far⟩
    rw [near _ (tree.above _ listed deep)] at far
    cases far
  · intro ⟨directory, far⟩
    rw [near names (directory ▸ listed)] at far
    cases far

theorem signatures_eq : s.signatures fs = (filesBelow fs place).filterMap fun names =>
    (Key.signature ⟨Path.join names⟩ s.config.algorithm s.config.segmentWidth).toOption := by
  rw [signatures, list_eq_map root tree near, List.filterMap_map]
  rfl

variable (pos : 0 < s.config.segmentWidth)
include pos

theorem mem_signatures {signature : Signature} : signature ∈ s.signatures fs ↔
    s.Takes signature ∧ ∃ number, (s.folders signature ++ [s.object signature], .file number) ∈ fs.below place := by
  rw [signatures_eq root tree near, List.mem_filterMap]
  constructor
  · intro ⟨names, mem, told⟩
    obtain ⟨takes, rfl⟩ := (told_iff tree pos mem).1 told
    exact ⟨takes, (mem_filesBelow.1 mem).1⟩
  · intro ⟨takes, there⟩
    have lasting : isTemporary ((s.folders signature ++ [s.object signature]).getLast?.getD []) = false := by
      rw [List.getLast?_concat]
      exact isTemporary_object pos takes
    have mem := mem_filesBelow.2 ⟨there, lasting⟩
    exact ⟨_, mem, (told_iff tree pos mem).2 ⟨takes, rfl⟩⟩

theorem nodup_signatures : (s.signatures fs).Nodup := by
  rw [signatures_eq root tree near]
  refine List.pairwise_filterMap.2 ((nodup_filesBelow tree).imp_of_mem ?_)
  rintro names names' mem mem' differ signature told other told' rfl
  obtain ⟨-, here⟩ := (told_iff tree pos mem).1 told
  obtain ⟨-, there⟩ := (told_iff tree pos mem').1 told'
  exact differ (here.trans there.symm)

omit near in
/-- A signature is contained if its object is there and has no path that is too long. -/
theorem contains_iff {signature : Signature} (takes : s.Takes signature) : s.contains fs signature = true ↔
    (∃ number, (s.folders signature ++ [s.object signature], .file number) ∈ fs.below place) ∧
      (s.path signature).bytes.length ≤ pathLimit := by
  rw [contains, path_eq_extend pos takes, ← tree.isFile_iff root (usable_place pos takes) (by simp)]
  simp [takes.algorithm]

end

/-- **Lists agree with what a store contains**, whatever strangers have put below
its root. There is one item for each file that is not temporary and no other; the
signatures among them are the store's own and each is listed once; and the store
contains just those whose objects have paths that are not too long. -/
theorem list_agrees (pos : 0 < s.config.segmentWidth) (root : fs.DirectoryAt s.root place) (tree : fs.Tree place)
    (near : ∀ names, (names, .directory) ∈ fs.below place → outOfReach s.root names = false) :
    (∃ files : List Place, files.Nodup ∧
      (∀ names, names ∈ files ↔ (∃ number, (names, .file number) ∈ fs.below place) ∧
        isTemporary (names.getLast?.getD []) = false) ∧
      s.list fs = files.map fun names => Key.signature ⟨Path.join names⟩ s.config.algorithm s.config.segmentWidth) ∧
    (s.signatures fs).Nodup ∧ (∀ signature ∈ s.signatures fs, s.Takes signature) ∧
    ∀ signature, s.Takes signature → (s.contains fs signature = true ↔
      signature ∈ s.signatures fs ∧ (s.path signature).bytes.length ≤ pathLimit) := by
  have listed (signature : Signature) : signature ∈ s.signatures fs ↔ s.Takes signature ∧ _ :=
    mem_signatures root tree near pos
  refine ⟨⟨filesBelow fs place, nodup_filesBelow tree, fun _ => mem_filesBelow, list_eq_map root tree near⟩,
    nodup_signatures root tree near pos, fun signature mem => ((listed signature).1 mem).1, fun signature takes => ?_⟩
  rw [contains_iff root tree pos takes, listed]
  exact and_congr_left' ⟨fun there => ⟨takes, there⟩, And.right⟩

/-- An object, a temporary file, and a file whose name is too short for a key. -/
theorem list_agrees_strangers :
    let s : Store := ⟨Path.ofText "/s", ⟨.sha256, 60, false⟩⟩
    let signature : Signature := ⟨.sha256, List.replicate 32 0⟩
    let fs : FileSystem :=
      ⟨[([Bytes.ofText "s"], .directory), ([Bytes.ofText "s", s.object signature], .file 0),
        ([Bytes.ofText "s", Bytes.ofText "d"], .directory),
        ([Bytes.ofText "s", Bytes.ofText "d", Bytes.ofText ".tmpx"], .file 1),
        ([Bytes.ofText "s", Bytes.ofText "d", Bytes.ofText "AA.chunk"], .file 2)], [[], [], []]⟩
    0 < s.config.segmentWidth ∧ fs.DirectoryAt s.root [Bytes.ofText "s"] ∧ fs.Tree [Bytes.ofText "s"] ∧
      (∀ names, (names, .directory) ∈ fs.below [Bytes.ofText "s"] → outOfReach s.root names = false) ∧
      s.contains fs signature = true ∧ signature ∈ s.signatures fs ∧ (s.list fs).length = 2 := by
  intro s signature fs
  have pos : 0 < s.config.segmentWidth := by decide
  have takes : s.Takes signature := ⟨rfl, rfl⟩
  have root : fs.DirectoryAt s.root [Bytes.ofText "s"] := ⟨by rfl, by rfl⟩
  have below : fs.below [Bytes.ofText "s"] = [([s.object signature], .file 0), ([Bytes.ofText "d"], .directory),
    ([Bytes.ofText "d", Bytes.ofText ".tmpx"], .file 1),
    ([Bytes.ofText "d", Bytes.ofText "AA.chunk"], .file 2)] := by rfl
  have tree : fs.Tree [Bytes.ofText "s"] :=
    ⟨by decide +kernel, by decide +kernel, by decide +kernel, by simp [below]⟩
  have near : ∀ names, (names, .directory) ∈ fs.below [Bytes.ofText "s"] → outOfReach s.root names = false := by
    simp [below]
    decide
  have contained : s.contains fs signature = true := by decide +kernel
  obtain ⟨-, -, -, agrees⟩ := list_agrees pos root tree near
  exact ⟨pos, root, tree, near, contained, ((agrees signature takes).1 contained).1, by decide +kernel⟩

/-- An object that is listed is not contained if its path is too long, however short that of its directory. -/
theorem list_disagrees_of_long_root :
    let s : Store := ⟨⟨List.replicate pathLimit slash⟩, ⟨.sha256, 60, false⟩⟩
    let signature : Signature := ⟨.sha256, List.replicate 32 0⟩
    let fs := FileSystem.empty.putFile [s.object signature] []
    fs.DirectoryAt s.root [] ∧ fs.Tree [] ∧
      (∀ names, (names, .directory) ∈ fs.below [] → outOfReach s.root names = false) ∧
      s.Takes signature ∧ signature ∈ s.signatures fs ∧ s.contains fs signature = false := by
  intro s signature fs
  have pos : 0 < s.config.segmentWidth := by decide
  have takes : s.Takes signature := ⟨rfl, rfl⟩
  have root : fs.DirectoryAt s.root [] :=
    FileSystem.directoryAt_of_canonical (FileSystem.canonical_slashes fs (by decide)) rfl (by simp [s])
  have below : fs.below [] = [([s.object signature], .file 0)] := by rfl
  have tree : fs.Tree [] := by
    refine ⟨by simp [FileSystem.Unique, below], ?_, by simp [below], by simp [below]⟩
    simpa [below] using usable_object pos takes
  have near : ∀ names, (names, .directory) ∈ fs.below [] → outOfReach s.root names = false := by simp [below]
  have folders : s.folders signature = [] := by decide +kernel
  refine ⟨root, tree, near, takes, (mem_signatures root tree near pos).2 ⟨takes, 0, ?_⟩, ?_⟩
  · rw [below, folders]
    simp
  · have long := length_root_lt pos takes
    rw [← Bool.not_eq_true, contains_iff root tree pos takes]
    rw [show s.root.bytes.length = pathLimit from List.length_replicate] at long
    omega

end Store

end ContentChunks
