/-
What is left when a payload is not put. Publishing may be refused at any of its
steps, by what stands in the file system or by the disk. Before the object is in its
place, directories have been made above it at most: they stay, and the temporary file
is removed, whatever is in it. So no file is new, none is gone, and none has another
content. After that only the directory has still to be synced; where that is refused,
the object is there, and nothing tells it from one that was put.

Main statements:
- `FileSystem.stop_of_stepsOn`: steps that are refused stop between two of them.
- `FileSystem.DirectoryAt.write_stopped`: where the writing of a file stops.
- `Store.publishOn_refused`: what is left when publishing is refused, at whichever step.
- `Store.put_refused`: a refused put changes no object, or the object is in its place.
- `Store.put_refused_unsynced`: it may be, and a store may come to be where none was.
-/
import ContentChunks.Proofs.Publishing

namespace ContentChunks

namespace FileSystem

open ContentChunks.Path (IsName)
open ContentChunks.Store (writeSteps)

variable {fs last made : FileSystem} {place : Place} {names : List Bytes} {name : Bytes} {p target : Path}

/-- The content of the file at a place, if one is there. -/
def file? (fs : FileSystem) (place : Place) : Option Bytes :=
  match fs.node? place with
  | some (.file number) => some (fs.content number)
  | _ => none

/-- Whether each file has a content. -/
def Filled (fs : FileSystem) : Prop := ∀ place number, fs.node? place = some (.file number) → number < fs.contents.length

/-- The file system with a content that is no file's. -/
def spent (fs : FileSystem) (data : Bytes) : FileSystem := { fs with contents := fs.contents ++ [data] }

theorem keeps_spent (fs : FileSystem) (data : Bytes) : fs.Keeps (fs.spent data) := fun _ _ _ found => found

theorem filter_free (given : place ≠ []) (free : fs.node? place = none) :
    (fs.nodes.filter fun e => e.1 != place) = fs.nodes := by
  rw [node?_of_ne_nil given] at free
  refine List.filter_eq_self.2 fun e listed => ?_
  have other : ¬place = e.1 := by simpa using List.lookup_eq_none_iff.1 free e listed
  simpa using fun same : e.1 = place => other same.symm

/-- Of a new file that is removed only its content is left. -/
theorem drop_putFile (given : place ≠ []) (free : fs.node? place = none) (data : Bytes) :
    (fs.putFile place data).drop place = fs.spent data := by
  simp [putFile, put, drop, spent, List.filter_append, filter_free given free]

theorem DirectoryAt.unlink_putFile (h : fs.DirectoryAt p place) (usable : Usable name)
    (short : (p.push name).bytes.length ≤ pathLimit) (free : fs.node? (place ++ [name]) = none) (bytes : Bytes) :
    (fs.putFile (place ++ [name]) bytes).unlink (p.push name) = .ok (fs.spent bytes) := by
  have given : place ++ [name] ≠ [] := by simp
  have file : (fs.putFile (place ++ [name]) bytes).node? (place ++ [name]) = some (.file fs.contents.length) := by
    rw [node?_putFile given, if_pos rfl]
  have keeps : fs.Keeps (fs.putFile (place ++ [name]) bytes) := keeps_put given free
  rw [(h.mono keeps).unlink_file usable short file, drop_putFile given free]

theorem DirectoryAt.unlink_free (h : fs.DirectoryAt p place) (solid : fs.Solid place)
    (isName : ∀ n ∈ names ++ [name], IsName n) (free : fs.node? (place ++ (names ++ [name])) = none) :
    ∃ fault, fs.unlink ((p.extend names).push name) = .error fault := by
  cases removed : fs.unlink ((p.extend names).push name) with
  | error fault => exact ⟨fault, rfl⟩
  | ok last =>
    obtain ⟨destination, found, dropped⟩ := bind_eq_ok.1 removed
    rw [entry_closed (Path.closed_push (isName name (by simp)) _), ← Path.extend_concat] at found
    cases destination with
    | missing directory last => cases dropped
    | found there =>
      obtain ⟨rfl, node⟩ := h.place_of_locate solid (.inl rfl) isName (by simp) found
      exact absurd free node

/-- Directories that are made along names are nowhere else. -/
theorem Grown.node?_of_apart (grown : Grown place names fs made) {there : Place}
    (apart : ∀ init, init <+: names → there ≠ place ++ init) : made.node? there = fs.node? there := by
  induction grown with
  | same => rfl
  | made _ within _ _ ih => rw [node?_put (by simp), if_neg (apart _ within), ih]

theorem Grown.free (grown : Grown place names fs made) (free : fs.node? (place ++ (names ++ [name])) = none) :
    made.node? (place ++ (names ++ [name])) = none := by
  rw [grown.node?_of_apart, free]
  intro init within same
  have := within.length_le
  have := congrArg List.length (List.append_cancel_left same)
  rw [List.length_append, List.length_singleton] at this
  omega

/-! ## Where steps stop -/

/-- **Steps that are refused stop between two of them**: those before have been taken, and the
next one the disk refuses, or it cannot be taken. -/
theorem stop_of_stepsOn {disk : Disk} {taken : Nat} {all : List Step} {fault : OsFault}
    (refused : fs.stepsOn disk taken all = (.error fault, last)) :
    ∃ front next rest, all = front ++ next :: rest ∧ fs.steps front = (.ok (), last) ∧
      (disk.refusal (taken + front.length) next = some fault ∨ last.step next = .error fault) := by
  induction all generalizing taken fs with
  | nil => cases refused
  | cons first rest ih =>
    rw [stepsOn] at refused
    split at refused
    · rename_i why
      obtain ⟨same, rfl⟩ := Prod.mk.inj refused
      exact ⟨[], first, rest, rfl, rfl, .inl (Except.error.inj same ▸ why)⟩
    · split at refused
      · rename_i done
        obtain ⟨front, next, after, rfl, ran, why⟩ := ih refused
        refine ⟨first :: front, next, after, rfl, by rw [steps_cons, done]; exact ran, ?_⟩
        rwa [List.length_cons, Nat.add_comm front.length, ← Nat.add_assoc]
      · rename_i done
        obtain ⟨same, rfl⟩ := Prod.mk.inj refused
        exact ⟨[], first, rest, rfl, rfl, .inr (Except.error.inj same ▸ done)⟩

theorem keeps_put_over (given : place ≠ []) {node : Node}
    (replaced : ∀ old, fs.node? place = some old → ∃ number, old = .file number) : fs.Keeps (fs.put place node) := by
  intro other item notFile found
  rw [node?_put given]
  split
  · rename_i same
    subst same
    obtain ⟨number, rfl⟩ := replaced item found
    exact absurd rfl (notFile number)
  · exact found

theorem DirectoryAt.keeps_move (h : fs.DirectoryAt p place) (solid : fs.Solid place) (isName : ∀ n ∈ names, IsName n)
    (given : names ≠ []) {source : Path} {there : Place} {number : Nat}
    (located : fs.locate .look source = .ok (.found there)) (file : fs.node? there = some (.file number))
    (done : fs.move source (p.extend names) = .ok last) : fs.Keeps last := by
  have filled : there ≠ [] := by
    rintro rfl
    cases file
  have dropped := keeps_drop filled file
  rw [move, located] at done
  simp only [bind, Except.bind, file] at done
  split at done
  · cases done
  · rename_i destination found
    split at done
    · rename_i directory name
      obtain ⟨front, rfl, rfl, -, free, -⟩ := h.missing_of_locate solid (.inl rfl) isName given found
      obtain rfl := Except.ok.inj done
      refine dropped.trans (keeps_put (by simp) ?_)
      rw [node?_drop filled, List.append_assoc, free, ite_self]
    · rename_i old
      obtain ⟨rfl, -⟩ := h.place_of_locate solid (.inl rfl) isName given found
      split at done
      · cases done
      · rename_i notDirectory
        obtain rfl := Except.ok.inj done
        refine dropped.trans (keeps_put_over (by simp [given]) fun node found => ?_)
        rw [node?_drop filled] at found
        split at found
        · cases found
        · cases node with
          | file number => exact ⟨number, rfl⟩
          | directory => exact absurd found notDirectory
          | link target => exact absurd found (solid names target given)

theorem Solid.putFile (solid : fs.Solid place) {there : Place} (given : there ≠ []) (bytes : Bytes) :
    (fs.putFile there bytes).Solid place := by
  intro names target filled found
  rw [node?_putFile given] at found
  split at found
  · cases found
  · exact solid names target filled found

/-- The directory that a new file was moved out of is still there, and can be opened. -/
theorem DirectoryAt.syncDirectory_moved {directory : Path} {there : Place} (h : fs.DirectoryAt p place)
    (solid : fs.Solid place) (isName : ∀ n ∈ names, IsName n) (given : names ≠ [])
    (above : fs.DirectoryAt directory there) (usable : Usable name)
    (short : (directory.push name).bytes.length ≤ pathLimit) (free : fs.node? (there ++ [name]) = none) {bytes : Bytes}
    (moved : (fs.putFile (there ++ [name]) bytes).move (directory.push name) (p.extend names) = .ok last) :
    last.step (.syncDirectory directory) = .ok last := by
  have filled : there ++ [name] ≠ [] := by simp
  have keeps : fs.Keeps (fs.putFile (there ++ [name]) bytes) := keeps_put filled free
  have file : (fs.putFile (there ++ [name]) bytes).node? (there ++ [name]) = some (.file fs.contents.length) := by
    rw [node?_putFile filled, if_pos rfl]
  have located := (above.mono keeps).locate_found (.inl rfl) usable short (by simp) file
  have still := (h.mono keeps).keeps_move (solid.putFile filled _) isName given located file moved
  exact ((above.mono keeps).mono still).syncDirectory

/-- **Where the writing of a file stops**: nothing is made yet, or the file is there with some of the
bytes, or it has been moved, and the directory is still to be synced. -/
theorem DirectoryAt.write_stopped (h : fs.DirectoryAt p place) (solid : fs.Solid place)
    (usable : ∀ n ∈ names, Usable n) (short : (p.extend names).bytes.length ≤ pathLimit) (isName : IsName name)
    (noZero : 0 ∉ name) {pieces : List Bytes} {front rest : List Step} {next : Step}
    (all : writeSteps (p.extend names) ((p.extend names).push name) target pieces = front ++ next :: rest)
    (ran : fs.steps front = (.ok (), last)) :
    last = fs ∨ fs.Spine place names ∧ Usable name ∧ ((p.extend names).push name).bytes.length ≤ pathLimit ∧
      fs.node? (place ++ names ++ [name]) = none ∧
        ((∃ bytes, last = fs.putFile (place ++ names ++ [name]) bytes) ∨
          next = .syncDirectory (p.extend names) ∧
            (fs.putFile (place ++ names ++ [name]) pieces.flatten).move ((p.extend names).push name) target =
              .ok last) := by
  rcases front with _ | ⟨first, front⟩
  · exact .inl (Prod.mk.inj ran).2.symm
  rw [writeSteps, List.cons_append, List.cons_append, List.cons.injEq] at all
  obtain ⟨rfl, all⟩ := all
  obtain ⟨_, made⟩ := step_of_cons (congrArg Prod.fst ran)
  have isNames : ∀ n ∈ names ++ [name], IsName n := by
    simpa [or_imp, forall_and] using ⟨fun n hn => (usable n hn).toIsName, isName⟩
  obtain ⟨shortName, spine, free, brief⟩ := makeFile_cases h solid isNames made
  have usableName : Usable name := ⟨isName, noZero, brief⟩
  have wrote (pieces : List Bytes) := (h.extend usable short spine).write_pieces usableName shortName free pieces
  refine .inr ⟨spine, usableName, shortName, free, ?_⟩
  obtain ⟨more, rfl, ending⟩ | ⟨more, appends, -⟩ := List.append_eq_append_iff.1 all
  · rw [← List.cons_append, steps_append, wrote] at ran
    dsimp only at ran
    rcases more with _ | ⟨_, _ | ⟨_, _ | ⟨_, more⟩⟩⟩ <;>
      simp only [List.nil_append, List.cons_append, List.cons.injEq] at ending
    · exact .inl ⟨_, (Prod.mk.inj ran).2.symm⟩
    · obtain ⟨rfl, -⟩ := ending
      exact .inl ⟨_, (Prod.mk.inj ran).2.symm⟩
    · obtain ⟨rfl, rfl, rfl, -⟩ := ending
      refine .inr ⟨rfl, ?_⟩
      simp only [steps_cons, steps_nil, step] at ran
      split at ran
      · rename_i moved done
        rw [done, (Prod.mk.inj ran).2]
      · cases ran
    · simp at ending
  · obtain ⟨written, -, rfl, rfl, -⟩ := List.map_eq_append_iff.1 appends
    rw [wrote] at ran
    exact .inl ⟨_, (Prod.mk.inj ran).2.symm⟩

/-! ## Files -/

theorem Grown.file? (grown : Grown place names fs made) (there : Place) : made.file? there = fs.file? there := by
  induction grown with
  | same => rfl
  | @made last init name _ _ _ free ih =>
    rw [← ih, FileSystem.file?, FileSystem.file?, node?_put (by simp)]
    by_cases here : there = place ++ (init ++ [name])
    · rw [if_pos here, here, free]
    · rw [if_neg here]
      rfl

theorem filled_empty : empty.Filled := by
  intro place number found
  unfold node? at found
  split at found <;> cases found

theorem Filled.put_directory (filled : fs.Filled) (given : place ≠ []) : (fs.put place .directory).Filled := by
  intro there number found
  rw [node?_put given] at found
  split at found
  · cases found
  · exact filled there number found

theorem Filled.grown (filled : fs.Filled) (grown : Grown place names fs made) : made.Filled := by
  induction grown with
  | same => exact filled
  | made _ _ _ _ ih => exact ih.put_directory (by simp)

theorem file?_congr (filled : fs.Filled) (contents : fs.contents <+: last.contents) {there : Place}
    (same : last.node? there = fs.node? there) : last.file? there = fs.file? there := by
  unfold FileSystem.file?
  rw [same]
  split
  · rename_i number found
    rw [content_within contents (filled there number found)]
  · rfl

end FileSystem

/-- Whether an error says that a signature is another than it has to be. -/
def Error.IsMismatch : Error → Prop
  | .algorithmMismatch .. | .signatureMismatch .. => True
  | _ => False

namespace Store

open FileSystem (Step Disk Usable Grown pathLimit)

variable {s : Store} {place : Place} {fs last made : FileSystem} {disk : Disk} {signature : Signature} {data : Bytes}
  {p : Path}

/-! ## The name of the temporary file -/

theorem exists_freshName (names : List Bytes) (n : Nat) :
    ∃ count, freshName names n = temporary ++ List.replicate count 0x61 := by
  fun_induction freshName names n with
  | case1 names n name h ih => exact ih
  | case2 names n name h => exact ⟨n, rfl⟩

theorem exists_temporaryName (fs : FileSystem) (p : Path) :
    ∃ count, temporaryName fs p = temporary ++ List.replicate count 0x61 := by
  unfold temporaryName
  split
  · exact exists_freshName _ _
  · exact exists_freshName _ _

theorem isName_temporaryName (fs : FileSystem) (p : Path) : Path.IsName (temporaryName fs p) := by
  obtain ⟨count, same⟩ := exists_temporaryName fs p
  rw [same]
  have long : 4 ≤ (temporary ++ List.replicate count 0x61).length := by
    rw [List.length_append]
    exact Nat.le_add_right 4 _
  refine ⟨?_, ?_, ?_, ?_⟩
  · intro empty
    simp [empty] at long
  · rw [List.mem_append, List.mem_replicate, not_or]
    exact ⟨by decide, fun same => absurd same.2 (by decide)⟩
  · intro short
    simp [short] at long
  · intro short
    simp [short] at long

theorem zero_notMem_temporaryName (fs : FileSystem) (p : Path) : 0 ∉ temporaryName fs p := by
  obtain ⟨count, same⟩ := exists_temporaryName fs p
  rw [same, List.mem_append, List.mem_replicate, not_or]
  exact ⟨by decide, fun same => absurd same.2 (by decide)⟩

theorem head?_temporaryName (fs : FileSystem) (p : Path) : (temporaryName fs p).head? = some dot := by
  obtain ⟨count, same⟩ := exists_temporaryName fs p
  rw [same]
  rfl

/-- **The name of the temporary file is that of no other entry**, be the directory there already or not. -/
theorem free_temporaryName (root : fs.DirectoryAt p place) (grounded : fs.Grounded place) {names : List Bytes}
    (usable : ∀ n ∈ names, Usable n) (short : (p.extend names).bytes.length ≤ pathLimit) :
    fs.node? (place ++ (names ++ [temporaryName fs (p.extend names)])) = none := by
  cases found : fs.node? (place ++ (names ++ [temporaryName fs (p.extend names)])) with
  | none => rfl
  | some node =>
    have above := root.extend usable short (grounded.spine (by rw [found]; simp))
    have named : temporaryName fs (p.extend names) = freshName (fs.namesBelow (place ++ names)) 6 := by
      rw [temporaryName, above.reached]
    rw [named, ← List.append_assoc, FileSystem.node?_of_ne_nil (by simp)] at found
    obtain ⟨before, after, same, -⟩ := List.lookup_eq_some_iff.1 found
    have listed : ([freshName (fs.namesBelow (place ++ names)) 6], node) ∈ fs.below (place ++ names) :=
      FileSystem.mem_below.2 ⟨by simp, by simp [same]⟩
    have known : freshName (fs.namesBelow (place ++ names)) 6 ∈ fs.namesBelow (place ++ names) :=
      List.mem_filterMap.2 ⟨_, listed, rfl⟩
    exact absurd known (freshName_not_mem _ _)

/-! ## Publishing -/

theorem length_folder_le_of_plain (root : fs.DirectoryAt s.root place) (pos : 0 < s.config.segmentWidth)
    (takes : s.Takes signature) (short : (s.plainFolder signature).bytes.length ≤ pathLimit) :
    (s.folder signature).bytes.length ≤ pathLimit := by
  rw [plainFolder_eq root.sound.given pos takes, top] at short
  unfold folder
  split at short
  · rename_i noFolders
    rw [noFolders]
    exact root.sound.short
  · exact short

/-- What is left of an object that was not published: directories above it, and a content that is no file's. -/
def Remains (s : Store) (place : Place) (signature : Signature) (fs last : FileSystem) : Prop :=
  last = fs ∨ (s.folder signature).bytes.length ≤ pathLimit ∧
    ∃ made, Grown place (s.folders signature) fs made ∧ (last = made ∨ ∃ bytes, last = made.spent bytes)

section Publish

variable (pos : 0 < s.config.segmentWidth) (root : fs.DirectoryAt s.root place) (grounded : fs.Grounded place)
  (takes : s.Takes signature)
include pos root grounded takes

/-- **Where publishing stops**, if the path of the directory is not too long: directories above the object have been
made, then perhaps the temporary file, and this may have been moved. -/
theorem publish_stopped {stopped : FileSystem} {name : Bytes} {pieces : List Bytes} {fault : OsFault}
    (short : (s.plainFolder signature).bytes.length ≤ pathLimit) (isName : Path.IsName name) (noZero : 0 ∉ name)
    (refused : fs.stepsOn disk 0 (publishSteps fs (s.plainFolder signature) ((s.plainFolder signature).push name)
      (s.path signature) pieces) = (.error fault, stopped)) :
    ∃ made, Grown place (s.folders signature) fs made ∧ (stopped = made ∨
      made.Spine place (s.folders signature) ∧ Usable name ∧
        ((s.plainFolder signature).push name).bytes.length ≤ pathLimit ∧
        made.node? (place ++ s.folders signature ++ [name]) = none ∧
        ((∃ bytes, stopped = made.putFile (place ++ s.folders signature ++ [name]) bytes) ∨
          (∃ taken, disk.refusal taken (.syncDirectory (s.plainFolder signature)) = some fault) ∧
            (made.putFile (place ++ s.folders signature ++ [name]) pieces.flatten).move
              ((s.plainFolder signature).push name) (s.path signature) = .ok stopped)) := by
  have usable := usable_folders pos takes
  have isTop := plainFolder_eq root.sound.given pos takes
  have row {front : List Step} (within : front <+: fs.directorySteps (s.plainFolder signature)) :
      Grown place (s.folders signature) fs (fs.steps front).2 :=
    (directoryAt_top root signature).grown_directorySteps grounded (isName_folders pos takes) (isTop ▸ within)
  obtain ⟨front, next, rest, all, ran, why⟩ := FileSystem.stop_of_stepsOn refused
  rw [publishSteps_eq] at all
  obtain ⟨more, rfl, writing⟩ | ⟨more, directories, -⟩ := List.append_eq_append_iff.1 all
  · obtain ⟨-, onward⟩ := FileSystem.steps_of_append (congrArg Prod.fst ran)
    rw [onward] at ran
    have grown := row (List.prefix_refl _)
    generalize (fs.steps (fs.directorySteps (s.plainFolder signature))).2 = made at ran grown
    have root' := root.mono grown.keeps
    have solid := (grown.grounded grounded).noLinks
    refine ⟨made, grown, ?_⟩
    obtain same | ⟨spine, usableName, shortName, free, stop⟩ := (directoryAt_top root' signature).write_stopped solid
      usable (isTop ▸ short) isName noZero (isTop ▸ writing) ran
    · exact .inl same
    rw [← isTop] at shortName stop
    refine .inr ⟨spine, usableName, shortName, free, stop.imp_right fun ⟨isSync, moved⟩ => ⟨?_, moved⟩⟩
    subst isSync
    refine ⟨_, why.resolve_right fun unsynced => ?_⟩
    have above : made.DirectoryAt (s.plainFolder signature) (place ++ s.folders signature) :=
      isTop ▸ (directoryAt_top root' signature).extend usable (isTop ▸ short) spine
    rw [path_eq_extend pos takes] at moved
    rw [root'.syncDirectory_moved solid (fun n hn => (usable_place pos takes n hn).toIsName) (by simp) above usableName
      shortName free moved] at unsynced
    cases unsynced
  · have grown := row ⟨more, directories.symm⟩
    rw [ran] at grown
    exact ⟨stopped, grown, .inl rfl⟩

/-- **What is left when publishing is refused**, at whichever step: directories above the object; or the
object is there, and the disk did not sync its directory. -/
theorem publishOn_refused {fault : Fault} (refused : publishOn disk fs (s.path signature) data = (.error fault, last)) :
    s.Remains place signature fs last ∨
      (∃ taken os, fault = .os os ∧ disk.refusal taken (.syncDirectory (s.plainFolder signature)) = some os) ∧
        (s.contains fs signature = false → (s.path signature).bytes.length ≤ pathLimit ∧
          ∃ made, Grown place (s.folders signature) fs made ∧ s.Published place signature data made last) := by
  by_cases far : pathLimit < (s.plainFolder signature).bytes.length
  · obtain ⟨_, untouched⟩ := publishOn_far root.sound.given pos takes far disk data
    rw [untouched] at refused
    exact .inl (.inl (Prod.mk.inj refused).2.symm)
  have short := Nat.not_lt.1 far
  have usable := usable_folders pos takes
  have isTop := plainFolder_eq root.sound.given pos takes
  have isTemporary := isName_temporaryName fs (s.plainFolder signature)
  have noZero := zero_notMem_temporaryName fs (s.plainFolder signature)
  have head := head?_temporaryName fs (s.plainFolder signature)
  have free := free_temporaryName (directoryAt_top root signature) grounded usable (isTop ▸ short)
  rw [← isTop] at free
  unfold publishOn at refused
  rw [parent?_path root.sound.given pos takes] at refused
  dsimp only at refused
  generalize temporaryName fs (s.plainFolder signature) = name at *
  have isNames : ∀ n ∈ s.folders signature ++ [name], Path.IsName n := by
    simpa [or_imp, forall_and] using ⟨isName_folders pos takes, isTemporary⟩
  -- where there is no temporary file, none is removed
  have kept {now : FileSystem} (root : now.DirectoryAt s.root place) (grounded : now.Grounded place)
      (free : now.node? (place ++ (s.folders signature ++ [name])) = none) :
      ∃ fault, now.unlink ((s.plainFolder signature).push name) = .error fault :=
    isTop ▸ (directoryAt_top root signature).unlink_free grounded.noLinks isNames free
  split at refused
  · cases refused
  rename_i os stopped ran
  obtain ⟨same, rfl⟩ := Prod.mk.inj refused
  obtain rfl := Except.error.inj same
  have shortFolder := length_folder_le_of_plain root pos takes short
  obtain ⟨made, grown, stop⟩ := publish_stopped pos root grounded takes short isTemporary noZero ran
  have root' := root.mono grown.keeps
  have grounded' := grown.grounded grounded
  obtain rfl | ⟨spine, usableName, shortName, freeName, ⟨bytes, rfl⟩ | ⟨⟨taken, why⟩, moved⟩⟩ := stop
  · obtain ⟨_, kept⟩ := kept root' grounded' (grown.free free)
    exact .inl (.inr ⟨shortFolder, _, grown, .inl (by rw [kept])⟩)
  · have above : made.DirectoryAt (s.plainFolder signature) (place ++ s.folders signature) :=
      isTop ▸ (directoryAt_top root' signature).extend usable (isTop ▸ short) spine
    have removed := above.unlink_putFile usableName shortName freeName bytes
    exact .inl (.inr ⟨shortFolder, made, grown, .inr ⟨bytes, by rw [removed]⟩⟩)
  · refine .inr ⟨⟨taken, os, rfl, why⟩, fun absent => ?_⟩
    obtain ⟨_, located⟩ := FileSystem.located_of_move moved
    have shortObject := (FileSystem.sound_of_locate (.inl rfl) located).short
    have start : s.Unseen place fs fs := ⟨root, grounded, .refl s fs⟩
    have other : s.object signature ≠ name := by
      rintro rfl
      exact head?_object pos takes head
    rw [disk.flatten_pieces] at moved
    have published := (start.grown pos takes shortFolder grown).published pos takes shortObject usableName shortName spine
      freeName absent other moved
    obtain ⟨_, kept⟩ := kept published.root (published.grounded grounded') (by
      rw [published.nodes, if_neg, ← List.append_assoc, freeName]
      simpa using other.symm)
    rw [kept]
    exact ⟨shortObject, made, grown, published⟩

theorem publish_refused {fault : Fault} (refused : Store.publish fs (s.path signature) data = (.error fault, last)) :
    s.Remains place signature fs last := by
  obtain remains | ⟨⟨_, _, -, why⟩, -⟩ := publishOn_refused pos root grounded takes refused
  · exact remains
  · cases why

end Publish

/-! ## What is told -/

/-- Whether the same files are in two file systems, with the same contents, and a store
tells the same of both. -/
structure Spared (s : Store) (fs last : FileSystem) : Prop where
  files : ∀ there, last.file? there = fs.file? there
  get : ∀ signature, s.get last signature = s.get fs signature
  contains : ∀ signature, s.contains last signature = s.contains fs signature
  list : s.list last = s.list fs

theorem Spared.refl (s : Store) (fs : FileSystem) : s.Spared fs fs := ⟨fun _ => rfl, fun _ => rfl, fun _ => rfl, rfl⟩

theorem Spared.trans (h : s.Spared fs made) (h' : s.Spared made last) : s.Spared fs last where
  files there := (h'.files there).trans (h.files there)
  get signature := (h'.get signature).trans (h.get signature)
  contains signature := (h'.contains signature).trans (h.contains signature)
  list := h'.list.trans h.list

section Spared

variable (pos : 0 < s.config.segmentWidth) (root : fs.DirectoryAt s.root place) (grounded : fs.Grounded place)
include pos root

theorem list_grown (takes : s.Takes signature) (short : (s.folder signature).bytes.length ≤ pathLimit)
    (grown : Grown place (s.folders signature) fs made) : s.list made = s.list fs := by
  induction grown with
  | same => rfl
  | @made last init name grown within _ free ih =>
    have given : place ++ (init ++ [name]) ≠ [] := by simp
    have rootLast := root.mono grown.keeps
    have rootMade : (last.put (place ++ (init ++ [name])) .directory).DirectoryAt s.root place :=
      rootLast.mono (FileSystem.keeps_put given free)
    have untold := told_folder pos takes short within (by simp)
    have unmade : ((last.below place).filter fun e => e.1 != init ++ [name]) = last.below place := by
      rw [← FileSystem.below_drop, FileSystem.drop, FileSystem.filter_free given free]
    rw [← ih, list_eq_told rootMade, list_eq_told rootLast, FileSystem.below_put (by simp), unmade,
      List.filterMap_append]
    simp [untold]

include grounded

theorem spared_grown (takes : s.Takes signature) (short : (s.folder signature).bytes.length ≤ pathLimit)
    (grown : Grown place (s.folders signature) fs made) : s.Spared fs made := by
  have start : s.Unseen place fs fs := ⟨root, grounded, .refl s fs⟩
  have alike := (start.grown pos takes short grown).alike
  exact ⟨grown.file?, alike.get, alike.contains, list_grown pos root takes short grown⟩

theorem sameFile_spent (data : Bytes) (signature : Signature) :
    FileSystem.SameFile fs (fs.spent data) (s.path signature) := by
  have root' := root.mono (FileSystem.keeps_spent fs data)
  obtain ⟨names, path, isName, -⟩ := s.exists_names pos signature
  rw [path]
  exact root.sameFile root' grounded isName (fun _ _ _ => rfl) (List.prefix_append _ _)

theorem spared_spent (filled : fs.Filled) (data : Bytes) : s.Spared fs (fs.spent data) := by
  have root' := root.mono (FileSystem.keeps_spent fs data)
  have same := sameFile_spent pos root grounded data
  refine ⟨fun _ => FileSystem.file?_congr filled (List.prefix_append _ _) rfl, fun signature => get_congr (same signature),
    fun signature => contains_congr (same signature), ?_⟩
  rw [list_eq_told root', list_eq_told root]
  rfl

variable (filled : fs.Filled) (takes : s.Takes signature)
include filled takes

theorem Remains.spared (remains : s.Remains place signature fs last) : s.Spared fs last := by
  obtain rfl | ⟨short, made, grown, rfl | ⟨data, rfl⟩⟩ := remains
  · exact .refl s last
  · exact spared_grown pos root grounded takes short grown
  · exact (spared_grown pos root grounded takes short grown).trans
      (spared_spent pos (root.mono grown.keeps) (grown.grounded grounded) (filled.grown grown) data)

end Spared

/-- Whether the object of a payload is new in a file system, and nothing else: all other files are as they were,
and of all signatures with other digests a store tells what it told. -/
structure Gained (s : Store) (signature : Signature) (data : Bytes) (fs last : FileSystem) : Prop where
  file : ∃ there, fs.node? there = none ∧ last.file? there = some data ∧
    ∀ other, other ≠ there → last.file? other = fs.file? other
  get : s.get last signature = .ok data
  get_other : ∀ other : Signature, other.digest ≠ signature.digest → s.get last other = s.get fs other
  contains : s.contains last signature = true
  contains_other : ∀ other, other ≠ signature → s.contains last other = s.contains fs other
  list : (s.list last).Perm (.ok signature :: s.list fs)

section Gained

variable (published : s.Published place signature data made last) (pos : 0 < s.config.segmentWidth)
  (takes : s.Takes signature) (short : (s.path signature).bytes.length ≤ pathLimit)
include published pos takes short

theorem Published.list_perm (root : made.DirectoryAt s.root place) (unique : made.Unique place) :
    (s.list last).Perm (.ok signature :: s.list made) := by
  have new : (s.folders signature ++ [s.object signature], Node.file made.contents.length) ∉ made.below place := by
    rw [FileSystem.mem_below_iff unique, published.free]
    rintro ⟨-, ⟨⟩⟩
  have below : (last.below place).Perm
      ((s.folders signature ++ [s.object signature], .file made.contents.length) :: made.below place) := by
    refine (List.perm_ext_iff_of_nodup published.unique.of_map (List.nodup_cons.2 ⟨new, unique.of_map⟩)).2 ?_
    rintro ⟨names, node⟩
    rw [List.mem_cons, FileSystem.mem_below_iff published.unique, FileSystem.mem_below_iff unique, published.nodes]
    by_cases here : names = s.folders signature ++ [s.object signature]
    · subst here
      rw [if_pos rfl, published.free, Prod.mk.injEq]
      simpa using ⟨fun same => by rw [same], fun same => by rw [same]⟩
    · simp [here]
  have told := below.filterMap fun e => s.told e.1 e.2
  rw [List.filterMap_cons, told_object pos takes short] at told
  rw [list_eq_told published.root, list_eq_told root]
  exact told

theorem Published.gained (root : fs.DirectoryAt s.root place) (grounded : fs.Grounded place) (filled : fs.Filled)
    (hash : Signature.of s.config.algorithm data = signature) (grown : Grown place (s.folders signature) fs made) :
    s.Gained signature data fs last := by
  have root' := root.mono grown.keeps
  have grounded' := grown.grounded grounded
  have shortFolder := length_folder_le pos takes short
  have start : s.Unseen place fs fs := ⟨root, grounded, .refl s fs⟩
  have before := spared_grown pos root grounded takes shortFolder grown
  obtain ⟨got, contained, -⟩ := published.got (start.grown pos takes shortFolder grown) pos takes short hash
  have contents : made.contents <+: last.contents := ⟨[data], published.contents.symm⟩
  have same {other : Signature} (differ : other.digest ≠ signature.digest) :
      FileSystem.SameFile made last (s.path other) :=
    sameFile_of_hidden pos root' published.root grounded' contents published.nodes
      (fun digest inside => differ (Key.digest_eq_of_prefix pos (Key.digest_ne_nil takes.sized) digest inside).symm)
      (by simp)
  refine ⟨⟨place ++ (s.folders signature ++ [s.object signature]), ?_, ?_, fun other apart => ?_⟩, got,
    fun other differ => (get_congr (same differ)).trans (before.get other), contained, fun other differ => ?_,
    (before.list ▸ published.list_perm pos takes short root' grounded'.unique)⟩
  · cases found : fs.node? (place ++ (s.folders signature ++ [s.object signature])) with
    | none => rfl
    | some node =>
      have still := grown.grows.nodes _ _ found
      rw [published.free] at still
      cases still
  · rw [FileSystem.file?, published.nodes, if_pos rfl]
    simp [FileSystem.content, published.contents]
  · rw [← grown.file? other]
    exact FileSystem.file?_congr (filled.grown grown) contents (by rw [published.nodes, if_neg apart])
  · by_cases own : other.algorithm = s.config.algorithm
    · have differ : other.digest ≠ signature.digest := fun digest =>
        differ (congrArg₂ Signature.mk (own.trans takes.algorithm.symm) digest)
      exact (contains_congr (same differ)).trans (before.contains other)
    · simp [contains, own]

end Gained

/-- Whether an error says that the disk did not sync the directory of an object. -/
def Unsynced (s : Store) (disk : Disk) (signature : Signature) (e : Error) : Prop :=
  ∃ directory taken os, (s.path signature).parent? = some directory ∧
    disk.refusal taken (.syncDirectory directory) = some os ∧ e = .asset (s.path signature) (.os os)

/-- What there is after the put of a payload was refused: what there was; or the disk did not sync the
directory of the object, which is in its place. -/
structure Refused (s : Store) (disk : Disk) (signature : Signature) (data : Bytes) (e : Error) (fs last : FileSystem) :
    Prop where
  objects : s.Spared fs last ∨ s.Unsynced disk signature e ∧ s.Gained signature data fs last
  mismatch : e.IsMismatch → last = fs

section Put

variable {c : Chunk} {e : Error} (pos : 0 < s.config.segmentWidth) (root : fs.DirectoryAt s.root place)
  (grounded : fs.Grounded place) (filled : fs.Filled)
include pos root grounded filled

theorem refused_putOn (refused : s.putOn disk fs c data = (.error e, last)) :
    s.Refused disk c.signature data e fs last := by
  unfold putOn at refused
  dsimp only at refused
  split at refused
  · obtain ⟨-, rfl⟩ := Prod.mk.inj refused
    exact ⟨.inl (.refl s fs), fun _ => rfl⟩
  split at refused
  · obtain ⟨-, rfl⟩ := Prod.mk.inj refused
    exact ⟨.inl (.refl s fs), fun _ => rfl⟩
  rename_i hash
  split at refused
  · cases refused
  rename_i absent
  split at refused
  · rename_i fault published ran
    obtain ⟨isError, rfl⟩ := Prod.mk.inj refused
    obtain rfl := Except.error.inj isError
    have hash := not_not.1 hash
    have takes := takes_of_hash hash
    -- what is refused in publishing is no mismatch
    refine ⟨?_, False.elim⟩
    obtain remains | ⟨⟨taken, os, rfl, why⟩, done⟩ := publishOn_refused pos root grounded takes ran
    · exact .inl (remains.spared pos root grounded filled takes)
    · obtain ⟨short, made, grown, published⟩ := done (by simp [contains, absent])
      exact .inr ⟨⟨_, taken, os, parent?_path root.sound.given pos takes, why, rfl⟩,
        published.gained pos takes short root grounded filled hash grown⟩
  · cases refused

/-- **A refused put changes no object**, or it was refused when the object was in its place. Let the directory of a
store be there, as opening leaves it, and what is below it be a tree of directories and files, with any strangers in
it. Where a payload is put, be it given or read from an asset, and the answer is an error, at whichever step and
however the disk writes: then all files are as they were, no other file is there, and the store tells of all
signatures what it told; or the disk did not sync the directory of the object, and this is all that is new. And where
a signature does not match, nothing has changed at all. -/
theorem put_refused (disk : Disk) (c : Chunk) (base : Path) :
    (s.putOn disk fs c data = (.error e, last) → s.Refused disk c.signature data e fs last) ∧
      (s.putFromAssetOn disk fs c base = (.error e, last) →
        c.read fs base = .error e ∧ last = fs ∨
          ∃ data, c.read fs base = .ok data ∧ s.Refused disk c.signature data e fs last) := by
  refine ⟨fun refused => refused_putOn pos root grounded filled refused, fun refused => ?_⟩
  unfold putFromAssetOn at refused
  split at refused
  · cases refused
  split at refused
  · rename_i read
    obtain ⟨same, rfl⟩ := Prod.mk.inj refused
    exact .inl ⟨Except.error.inj same ▸ read, rfl⟩
  · rename_i data read
    exact .inr ⟨data, read, refused_putOn pos root grounded filled refused⟩

end Put

/-- A directory stands where the object is to be: the payload is written byte by byte, and not moved. -/
theorem put_refused_occupied :
    let s : Store := ⟨Path.ofText "/s", ⟨.sha256, 60, true⟩⟩
    let data := Bytes.ofText "abc"
    let c : Chunk := ⟨⟨["a"]⟩, .bytes 0 3, Signature.of .sha256 data⟩
    let place := [Bytes.ofText "s"]
    let fs := (FileSystem.empty.put place .directory).put (place ++ [s.object c.signature]) .directory
    let disk : Disk := ⟨fun bytes => bytes.map fun b => [b], List.flatMap_singleton', fun _ _ => none⟩
    fs.DirectoryAt s.root place ∧ fs.Grounded place ∧ fs.Filled ∧
      (s.putOn disk fs c data).1 = .error (.asset (s.path c.signature) (.os .isDirectory)) ∧
      s.Refused disk c.signature data (.asset (s.path c.signature) (.os .isDirectory)) fs (s.putOn disk fs c data).2 := by
  intro s data c place fs disk
  have pos : 0 < s.config.segmentWidth := by decide
  have start : (FileSystem.empty.put place .directory).DirectoryAt s.root place := ⟨by rfl, by rfl⟩
  have free : (FileSystem.empty.put place .directory).node? (place ++ ([] ++ [s.object c.signature])) = none := by
    decide +kernel
  have root : fs.DirectoryAt s.root place := start.mono (FileSystem.keeps_put (by simp) free)
  have grounded : fs.Grounded place :=
    (holds_empty start (by rfl)).grounded.put_directory (FileSystem.spine_nil _ _) free
  have filled : fs.Filled :=
    (FileSystem.filled_empty.put_directory (by simp [place])).put_directory (by simp)
  have refused : (s.putOn disk fs c data).1 = .error (.asset (s.path c.signature) (.os .isDirectory)) := by decide +kernel
  exact ⟨root, grounded, filled, refused,
    (put_refused pos root grounded filled disk c s.root).1 (Prod.ext refused rfl)⟩

/-- **What a refused put may change.** Of an object whose directory could not be synced it is told as of one that was
put. And where the directory of the store is gone, and the paths below it are too long, a refused put makes it again. -/
theorem put_refused_unsynced :
    let data := Bytes.ofText "abc"
    let c : Chunk := ⟨⟨["a"]⟩, .bytes 0 3, Signature.of .sha256 data⟩
    let near : Store := ⟨Path.ofText "/s", ⟨.sha256, 60, true⟩⟩
    let fs := FileSystem.empty.put [Bytes.ofText "s"] .directory
    let denied : OsFault := .other "Permission denied" 13
    let disk : Disk := ⟨fun bytes => [bytes], by simp, fun _ step =>
      if step = .syncDirectory near.root then some denied else none⟩
    let last := (near.putOn disk fs c data).2
    let far : Store := ⟨⟨Bytes.ofText "/s" ++ (List.replicate 2020 [slash, dot]).flatten⟩, ⟨.sha256, 60, true⟩⟩
    ((near.putOn disk fs c data).1 = .error (.asset (near.path c.signature) (.os denied)) ∧
        near.contains fs c.signature = false ∧ near.list fs = [] ∧
        near.contains last c.signature = true ∧ near.get last c.signature = .ok data ∧
        near.list last = [.ok c.signature]) ∧
      (far.put .empty c data).1 = .error (.asset (far.path c.signature) (.os .nameTooLong)) ∧
        far.list .empty = [.error (.asset far.root (.os .notFound))] ∧ far.list (far.put .empty c data).2 = [] := by
  decide +kernel

end Store

end ContentChunks
