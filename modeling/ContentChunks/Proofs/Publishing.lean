/-
Publishing a payload, one step after the other. The directories above the
object are made, the payload is written to a temporary file beside its place, in
any number of pieces, and the file is moved there. Before the move the store
tells what it told before all steps, and after it what it tells in the end.

Main statements:
- `Store.Unseen.grown`, `Store.Unseen.alike_temporary`: of directories and of the
  temporary file, whatever is in it, nothing is told.
- `Store.publish_all_or_nothing`: what is told between any two steps.
- `Store.list_between`: a list between two steps may be neither, if the
  directory of the store has to be made.
-/
import ContentChunks.Proofs.Alike

namespace ContentChunks

namespace FileSystem

open ContentChunks.Path (IsName)

variable {fs other : FileSystem} {place : Place} {names front : List Bytes} {name : Bytes} {p : Path}

/-! ## Runs of steps -/

/-- Where all steps succeed, so do the first of them, and the others go on from there. -/
theorem steps_of_append {before after : List Step} (ran : (fs.steps (before ++ after)).1 = .ok ()) :
    fs.steps before = (.ok (), (fs.steps before).2) ∧
      fs.steps (before ++ after) = (fs.steps before).2.steps after := by
  rw [steps_append] at ran ⊢
  generalize fs.steps before = result at ran ⊢
  obtain ⟨_ | _, next⟩ := result
  · cases ran
  · exact ⟨rfl, rfl⟩

theorem step_of_cons {first : Step} {rest : List Step} (ran : (fs.steps (first :: rest)).1 = .ok ()) :
    ∃ next, fs.step first = .ok next := by
  rw [steps_cons] at ran
  cases done : fs.step first with
  | ok next => exact ⟨next, rfl⟩
  | error fault =>
    rw [done] at ran
    cases ran

theorem prefix_append_cases {α : Type} {part before after : List α} (within : part <+: before ++ after) :
    part <+: before ∨ ∃ rest, part = before ++ rest ∧ rest <+: after := by
  rcases List.prefix_or_prefix_of_prefix within (List.prefix_append before after) with early | ⟨rest, rfl⟩
  · exact .inl early
  · exact .inr ⟨rest, rfl, (List.prefix_append_right_inj before).1 within⟩

/-! ## Making directories -/

theorem mem_directoriesToMake (h : fs.DirectoryAt p place) (isName : ∀ n ∈ names, IsName n) {q : Path}
    (mem : q ∈ fs.directoriesToMake (p.extend names).upwards) :
    ∃ init top, init <+: names ∧ q = top.extend init ∧ fs.DirectoryAt top place := by
  induction names using List.reverseRecOn generalizing p with
  | nil =>
    obtain ⟨above, hup⟩ := Path.exists_upwards h.sound.given
    rw [Path.extend_nil, hup, directoriesToMake, h.makeDirectory_self, List.mem_singleton] at mem
    exact ⟨[], p, List.nil_prefix, mem, h⟩
  | append_singleton names name ih =>
    have isNames := fun n hn => isName n (List.mem_append_left _ hn)
    rw [Path.extend_concat, Path.upwards_push (Path.extend_ne_nil h.sound.given isNames) (isName name (by simp)),
      Path.ofComponents_extend h.sound.given isNames, directoriesToMake] at mem
    have last (same : q = (p.extend names).push name) :
        ∃ init top, init <+: names ++ [name] ∧ q = top.extend init ∧ fs.DirectoryAt top place :=
      ⟨names ++ [name], p, List.prefix_refl _, by rw [same, Path.extend_concat], h⟩
    split at mem
    · obtain mem | mem := List.mem_append.1 mem
      · obtain ⟨init, top, within, same⟩ := ih h.plain isNames mem
        exact ⟨init, top, within.trans (List.prefix_append _ _), same⟩
      · exact last (List.mem_singleton.1 mem)
    · exact last (List.mem_singleton.1 mem)

/-- A directory is there already, or it is new in one that is there. -/
theorem ensureDirectory_cases (h : fs.DirectoryAt p place) (solid : fs.Solid place) (isName : ∀ n ∈ names, IsName n)
    (done : fs.ensureDirectory (p.extend names) = .ok other) :
    other = fs ∨ ∃ front name, names = front ++ [name] ∧ fs.Spine place front ∧
      fs.node? (place ++ (front ++ [name])) = none ∧ other = fs.put (place ++ (front ++ [name])) .directory := by
  obtain rfl | ⟨front, name, rfl⟩ := names.eq_nil_or_concat
  · rw [Path.extend_nil, h.ensureDirectory_self] at done
    exact .inl (Except.ok.inj done).symm
  rw [List.concat_eq_append] at *
  unfold ensureDirectory at done
  split at done
  · rename_i made
    obtain rfl := Except.ok.inj done
    obtain ⟨destination, found, put⟩ := bind_eq_ok.1 made
    have closed := Path.closed_push (isName name (by simp)) (p.extend front)
    rw [Path.extend_concat, entry_closed closed, ← Path.extend_concat] at found
    cases destination with
    | found there => cases put
    | missing directory last =>
      obtain ⟨front', same, rfl, spine, free, -⟩ := h.missing_of_locate solid (.inl rfl) isName (by simp) found
      obtain ⟨rfl, last⟩ := List.append_inj' same rfl
      obtain rfl := List.singleton_inj.1 last
      refine .inr ⟨front, name, rfl, spine, free, ?_⟩
      rw [← List.append_assoc]
      exact (Except.ok.inj put).symm
  · split at done
    · exact .inl (Except.ok.inj done).symm
    · cases done

theorem makeFile_cases (h : fs.DirectoryAt p place) (solid : fs.Solid place) (isName : ∀ n ∈ names ++ [name], IsName n)
    (done : fs.makeFile ((p.extend names).push name) = .ok other) :
    ((p.extend names).push name).bytes.length ≤ pathLimit ∧ fs.Spine place names ∧
      fs.node? (place ++ names ++ [name]) = none ∧ name.length ≤ nameLimit := by
  obtain ⟨destination, found, new⟩ := bind_eq_ok.1 done
  have short := (sound_of_locate (.inl rfl) found).short
  cases destination with
  | found there => cases new
  | missing directory last =>
    rw [← Path.extend_concat] at found
    obtain ⟨front, same, rfl, spine, free, brief⟩ := h.missing_of_locate solid (.inl rfl) isName (by simp) found
    obtain ⟨rfl, -⟩ := List.append_inj' same rfl
    exact ⟨short, spine, by rw [List.append_assoc, free], brief name (by simp)⟩

/-- A file system stays in order with something new in a directory, if that is no link, and has a content
if it is a file. -/
theorem Grounded.of_new {node : Node} (grounded : fs.Grounded place) (unique : other.Unique place)
    (contents : fs.contents <+: other.contents) (spine : fs.Spine place front)
    (free : fs.node? (place ++ (front ++ [name])) = none)
    (nodes : ∀ there, other.node? there = if there = place ++ (front ++ [name]) then some node else fs.node? there)
    (noLink : ∀ target, node ≠ .link target) (filled : ∀ number, node = .file number → number < other.contents.length) :
    other.Grounded place := by
  have grows : fs.Grows other := grows_of_new free contents nodes
  refine ⟨unique, ?_, ?_, ?_⟩
  · intro names last given there
    rw [nodes] at there
    split at there
    · rename_i same
      obtain ⟨rfl, -⟩ := List.append_inj' (List.append_cancel_left same) rfl
      exact grows.nodes _ _ (spine names (List.prefix_refl _) given)
    · exact grows.nodes _ _ (grounded.above names last given there)
  · intro names target given there
    rw [nodes] at there
    split at there
    · exact noLink target (Option.some.inj there)
    · exact grounded.noLinks names target given there
  · intro names number given there
    rw [nodes] at there
    split at there
    · exact filled number (Option.some.inj there)
    · exact Nat.lt_of_lt_of_le (grounded.filled names number given there) contents.length_le

theorem Grounded.put_directory (grounded : fs.Grounded place) (spine : fs.Spine place front)
    (free : fs.node? (place ++ (front ++ [name])) = none) :
    (fs.put (place ++ (front ++ [name])) .directory).Grounded place :=
  grounded.of_new (grounded.unique.put (by simp)) (List.prefix_refl _) spine free (fun _ => node?_put (by simp))
    nofun nofun

theorem Grown.grounded (grown : Grown place names fs other) (grounded : fs.Grounded place) : other.Grounded place := by
  induction grown with
  | same => exact grounded
  | made _ _ spine free ih => exact ih.put_directory spine free

/-- **To make a row of directories**, some of it or all, is to add directories along it. -/
theorem DirectoryAt.grown_directorySteps (h : fs.DirectoryAt p place) (grounded : fs.Grounded place)
    (isName : ∀ n ∈ names, IsName n) {row : List Step} (within : row <+: fs.directorySteps (p.extend names)) :
    Grown place names fs (fs.steps row).2 := by
  have each : ∀ step ∈ row, ∃ init top, init <+: names ∧ step = .ensureDirectory (top.extend init) ∧
      fs.DirectoryAt top place := by
    intro step mem
    obtain ⟨q, toMake, rfl⟩ := List.mem_map.1 (within.subset mem)
    obtain ⟨init, top, inside, rfl, above⟩ := mem_directoriesToMake h isName toMake
    exact ⟨init, top, inside, rfl, above⟩
  have onward (now : FileSystem) (grown : Grown place names fs now) : Grown place names fs (now.steps row).2 := by
    clear within
    induction row generalizing now with
    | nil => exact grown
    | cons step row ih =>
      obtain ⟨init, top, inside, rfl, above⟩ := each step List.mem_cons_self
      rw [steps_cons]
      cases done : now.step (.ensureDirectory (top.extend init)) with
      | error fault => exact grown
      | ok next =>
        refine ih (fun step mem => each step (.tail _ mem)) next ?_
        obtain rfl | ⟨front, name, rfl, spine, free, rfl⟩ := ensureDirectory_cases (above.mono grown.keeps)
          (grown.grounded grounded).noLinks (fun n hn => isName n (inside.subset hn)) done
        · exact grown
        · exact .made grown inside spine free
  exact onward fs .same

/-! ## Writing a file in pieces -/

theorem setContent_putFile (bytes more : Bytes) :
    (fs.putFile place bytes).setContent fs.contents.length
      ((fs.putFile place bytes).content fs.contents.length ++ more) = fs.putFile place (bytes ++ more) := by
  simp [putFile, setContent, content, put]

theorem written_eq_putFile (fs : FileSystem) (place : Place) (data : Bytes) : fs.written place data = fs.putFile place data :=
  setContent_putFile [] data

theorem DirectoryAt.append_pieces (h : fs.DirectoryAt p place) (usable : Usable name)
    (short : (p.push name).bytes.length ≤ pathLimit) (free : fs.node? (place ++ [name]) = none) (bytes : Bytes)
    (pieces : List Bytes) :
    (fs.putFile (place ++ [name]) bytes).steps (pieces.map (.append (p.push name))) =
      (.ok (), fs.putFile (place ++ [name]) (bytes ++ pieces.flatten)) := by
  induction pieces generalizing bytes with
  | nil => simp [steps_nil]
  | cons piece pieces ih =>
    have given : place ++ [name] ≠ [] := by simp
    have keeps : fs.Keeps (fs.putFile (place ++ [name]) bytes) := keeps_put given free
    have file : (fs.putFile (place ++ [name]) bytes).node? (place ++ [name]) = some (.file fs.contents.length) := by
      rw [node?_putFile given, if_pos rfl]
    have appended := (h.mono keeps).append_file usable short file piece
    rw [setContent_putFile] at appended
    rw [List.map_cons, steps_cons, step, appended, List.flatten_cons, ← List.append_assoc]
    exact ih (bytes ++ piece)

theorem DirectoryAt.write_pieces (h : fs.DirectoryAt p place) (usable : Usable name)
    (short : (p.push name).bytes.length ≤ pathLimit) (free : fs.node? (place ++ [name]) = none)
    (pieces : List Bytes) :
    fs.steps (.makeFile (p.push name) :: pieces.map (.append (p.push name))) =
      (.ok (), fs.putFile (place ++ [name]) pieces.flatten) := by
  rw [steps_cons, step, h.makeFile_free usable short free]
  exact h.append_pieces usable short free [] pieces

theorem DirectoryAt.move_directory (h : fs.DirectoryAt p place) (usable : Usable name)
    (short : (p.push name).bytes.length ≤ pathLimit) {number : Nat}
    (file : fs.node? (place ++ [name]) = some (.file number)) {target : Path} {there : Place}
    (located : fs.locate .look target = .ok (.found there)) (directory : fs.node? there = some .directory) :
    fs.move (p.push name) target = .error .isDirectory := by
  rw [move, h.locate_found (Or.inl rfl) usable short (by simp) file]
  simp only [bind, Except.bind, file, located, directory]
  rfl

end FileSystem

namespace Store

open FileSystem (Step Usable pathLimit)

variable {s : Store} {place : Place} {fs now next : FileSystem} {signature : Signature} {data : Bytes}

/-! ## Before the move -/

/-- A file system in order, of which a store tells what it told of another one. -/
structure Unseen (s : Store) (place : Place) (fs now : FileSystem) : Prop where
  root : now.DirectoryAt s.root place
  grounded : now.Grounded place
  alike : s.Alike fs now

section Unseen

variable (pos : 0 < s.config.segmentWidth)

/-- Of a temporary file nothing is told, whatever is in it. -/
theorem Unseen.alike_temporary (h : s.Unseen place fs now) (pos : 0 < s.config.segmentWidth) {front : List Bytes}
    {name : Bytes} (temporary : isTemporary name = true) (free : now.node? (place ++ (front ++ [name])) = none)
    (bytes : Bytes) : s.Alike fs (now.putFile (place ++ (front ++ [name])) bytes) := by
  have given : place ++ (front ++ [name]) ≠ [] := by simp
  have keeps : now.Keeps (now.putFile (place ++ (front ++ [name])) bytes) := FileSystem.keeps_put given free
  have unique : (now.putFile (place ++ (front ++ [name])) bytes).Unique place := h.grounded.unique.put (by simp)
  exact h.alike.trans (alike_of_temporary pos h.root (h.root.mono keeps) h.grounded unique (List.prefix_append _ _)
    temporary free fun _ => FileSystem.node?_putFile given bytes)

variable (takes : s.Takes signature)
include pos takes

/-- Nothing is told of directories that are made above an object. -/
theorem Unseen.grown (h : s.Unseen place fs now) (short : (s.folder signature).bytes.length ≤ pathLimit)
    (grown : FileSystem.Grown place (s.folders signature) now next) : s.Unseen place fs next := by
  induction grown with
  | same => exact h
  | @made last init name _ within spine free ih =>
    have given : place ++ (init ++ [name]) ≠ [] := by simp
    have root : (last.put (place ++ (init ++ [name])) .directory).DirectoryAt s.root place :=
      ih.root.mono (FileSystem.keeps_put given free)
    have grounded := ih.grounded.put_directory spine free
    exact ⟨root, grounded, ih.alike.trans (alike_of_folder pos ih.root root ih.grounded takes within spine free
      (List.prefix_refl _) (fun _ => FileSystem.node?_put given) grounded.unique short)⟩

variable (short : (s.path signature).bytes.length ≤ pathLimit)
include short

theorem Unseen.folder (h : s.Unseen place fs now) (spine : now.Spine place (s.folders signature)) :
    now.DirectoryAt (s.folder signature) (place ++ s.folders signature) :=
  h.root.extend (usable_folders pos takes) (length_folder_le pos takes short) spine

theorem Unseen.plainFolder (h : s.Unseen place fs now) (spine : now.Spine place (s.folders signature)) :
    now.DirectoryAt (s.plainFolder signature) (place ++ s.folders signature) :=
  (h.folder pos takes short spine).trimmed

end Unseen

/-! ## After the move -/

/-- What a file system has more than another when an object has been published. -/
structure Published (s : Store) (place : Place) (signature : Signature) (data : Bytes) (made final : FileSystem) :
    Prop where
  root : final.DirectoryAt s.root place
  unique : final.Unique place
  contents : final.contents = made.contents ++ [data]
  nodes : ∀ there, final.node? there =
    if there = place ++ (s.folders signature ++ [s.object signature]) then some (.file made.contents.length)
    else made.node? there
  free : made.node? (place ++ (s.folders signature ++ [s.object signature])) = none
  spine : made.Spine place (s.folders signature)

theorem Published.grounded {made final : FileSystem} (h : s.Published place signature data made final)
    (grounded : made.Grounded place) : final.Grounded place :=
  grounded.of_new h.unique ⟨[data], h.contents.symm⟩ h.spine h.free h.nodes nofun fun number same => by
    simp [h.contents, ← Node.file.inj same]

section Published

variable {made final : FileSystem} (h : s.Published place signature data made final)
  (unseen : s.Unseen place fs made) (pos : 0 < s.config.segmentWidth) (takes : s.Takes signature)
  (short : (s.path signature).bytes.length ≤ pathLimit)
include h unseen pos takes short

omit unseen in
theorem Published.contentAt : final.contentAt (s.path signature) = .ok data ∧ final.isFile (s.path signature) = true := by
  have usable := usable_folders pos takes
  have spine : final.Spine place (s.folders signature) := by
    intro init within given
    rw [h.nodes, if_neg, h.spine init within given]
    intro same
    have := within.length_le
    have := congrArg List.length (List.append_cancel_left same)
    rw [List.length_append, List.length_singleton] at this
    omega
  have above : final.DirectoryAt (s.folder signature) (place ++ s.folders signature) :=
    h.root.extend usable (length_folder_le pos takes short) spine
  have file : final.node? (place ++ s.folders signature ++ [s.object signature]) =
      some (.file made.contents.length) := by
    rw [List.append_assoc, h.nodes, if_pos rfl]
  rw [path_eq_push pos takes] at short ⊢
  have object := usable_object pos takes
  refine ⟨?_, above.isFile_file object short file⟩
  rw [above.contentAt_file object short file, FileSystem.content, h.contents]
  simp

/-- Beyond what was told before, only the new payload is got. -/
theorem Published.get_cases {other : Signature} {bytes : Bytes} (got : s.get final other = .ok bytes) :
    s.get fs other = .ok bytes ∨ bytes = data := by
  by_cases through : other.digest ≠ [] ∧ s.folders signature ++ [s.object signature] <+:
      Key.place other s.config.segmentWidth
  · right
    obtain ⟨digest, inside⟩ := through
    have same : s.path other = s.path signature := by
      rw [path_eq_extend pos takes, path, Key.path_eq pos digest]
      obtain same | before := List.prefix_concat_iff.1 inside
      · rw [same, Key.place]
      · -- the name of an object is only the last of a key
        have folder : s.object signature ∈ Key.folders other s.config.segmentWidth := before.subset (by simp)
        exact absurd rfl (Key.folder_ne_object folder)
    have read := contentAt_of_get got
    rw [same, (h.contentAt pos takes short).1] at read
    exact (Except.ok.inj read).symm
  · left
    rw [← unseen.alike.get other, ← got]
    refine (get_congr ?_).symm
    exact sameFile_of_hidden pos unseen.root h.root unseen.grounded ⟨[data], h.contents.symm⟩ h.nodes
      (fun digest inside => through ⟨digest, inside⟩) (by simp)

theorem Published.mem_list {item : Except Error Signature} :
    item ∈ s.list final ↔ item ∈ s.list fs ∨ item = .ok signature := by
  have given : s.folders signature ++ [s.object signature] ≠ [] := by simp
  have object := told_object pos takes short made.contents.length
  rw [← unseen.alike.list, Store.mem_list h.root h.unique, Store.mem_list unseen.root unseen.grounded.unique]
  constructor
  · intro ⟨names, node, filled, found, told⟩
    rw [h.nodes] at found
    split at found
    · rename_i here
      rw [List.append_cancel_left here, ← Option.some.inj found, object] at told
      exact .inr (Option.some.inj told).symm
    · exact .inl ⟨names, node, filled, found, told⟩
  · intro listed
    obtain ⟨names, node, filled, found, told⟩ | rfl := listed
    · refine ⟨names, node, filled, ?_, told⟩
      rw [h.nodes, if_neg, found]
      intro here
      rw [here, h.free] at found
      cases found
    · exact ⟨_, _, given, by rw [h.nodes, if_pos rfl], object⟩

theorem Published.got (hash : Signature.of s.config.algorithm data = signature) :
    s.get final signature = .ok data ∧ s.contains final signature = true ∧ .ok signature ∈ s.list final := by
  obtain ⟨read, isFile⟩ := h.contentAt pos takes short
  refine ⟨?_, by simp [contains, isFile, takes.algorithm], (h.mem_list unseen pos takes short).2 (.inr rfl)⟩
  rw [← takes.algorithm] at hash
  simp [get, read, hash]

end Published

/-! ## All steps -/

/-- The steps that write a payload, when the directories above its object are made. -/
def writeSteps (directory temp target : Path) (pieces : List Bytes) : List Step :=
  .makeFile temp :: pieces.map (.append temp) ++ [.sync temp, .move temp target, .syncDirectory directory]

theorem publishSteps_eq (fs : FileSystem) (directory temp target : Path) (pieces : List Bytes) :
    publishSteps fs directory temp target pieces =
      fs.directorySteps directory ++ writeSteps directory temp target pieces := by
  simp [publishSteps, writeSteps]

theorem steps_ending {written : FileSystem} {directory temp target : Path}
    (ran : (written.steps [.sync temp, .move temp target, .syncDirectory directory]).1 = .ok ()) :
    ∃ moved, written.move temp target = .ok moved ∧
      written.steps [.sync temp, .move temp target, .syncDirectory directory] = (.ok (), moved) ∧
      ∀ front, front <+: [Step.sync temp, .move temp target, .syncDirectory directory] →
        (written.steps front).2 = written ∨ (written.steps front).2 = moved := by
  obtain ⟨moved, done⟩ : ∃ moved, written.move temp target = .ok moved := by
    rw [FileSystem.steps_cons] at ran
    exact FileSystem.step_of_cons ran
  have synced : moved.step (.syncDirectory directory) = .ok moved := by
    simp only [FileSystem.steps_cons, FileSystem.step, done] at ran ⊢
    cases reached : moved.reach directory with
    | ok there => rfl
    | error fault =>
      rw [reached] at ran
      cases ran
  have all : written.steps [.sync temp, .move temp target, .syncDirectory directory] = (.ok (), moved) := by
    rw [FileSystem.step] at synced
    simp only [FileSystem.steps_cons, FileSystem.steps_nil, FileSystem.step, done, synced]
  refine ⟨moved, done, all, fun front within => ?_⟩
  obtain rfl | ⟨more, rfl, begun⟩ := List.prefix_cons_iff.1 within
  · exact .inl rfl
  obtain rfl | ⟨more, rfl, renamed⟩ := List.prefix_cons_iff.1 begun
  · exact .inl rfl
  right
  obtain rfl | ⟨more, rfl, ended⟩ := List.prefix_cons_iff.1 renamed
  · simp only [FileSystem.steps_cons, FileSystem.steps_nil, FileSystem.step, done]
  · rw [List.prefix_nil.1 ended, all]

section Write

variable {made written moved : FileSystem} {name : Bytes} {pieces : List Bytes} (unseen : s.Unseen place fs made)
  (pos : 0 < s.config.segmentWidth) (takes : s.Takes signature) (short : (s.path signature).bytes.length ≤ pathLimit)
  (usable : Usable name) (shortTemporary : ((s.plainFolder signature).push name).bytes.length ≤ pathLimit)
  (spine : made.Spine place (s.folders signature))
  (freeTemporary : made.node? (place ++ s.folders signature ++ [name]) = none)
include unseen pos takes short usable shortTemporary spine freeTemporary

theorem Unseen.free_object (absent : s.contains fs signature = false)
    (done : (made.putFile (place ++ s.folders signature ++ [name]) data).move ((s.plainFolder signature).push name)
      (s.path signature) = .ok moved) : made.node? (place ++ s.folders signature ++ [s.object signature]) = none := by
  have given : place ++ s.folders signature ++ [name] ≠ [] := by simp
  have keeps : made.Keeps (made.putFile (place ++ s.folders signature ++ [name]) data) :=
    FileSystem.keeps_put given freeTemporary
  have object := usable_object pos takes
  have folder := unseen.folder pos takes short spine
  have above := unseen.plainFolder pos takes short spine
  rw [path_eq_push pos takes] at short done
  cases found : made.node? (place ++ s.folders signature ++ [s.object signature]) with
  | none => rfl
  | some node =>
    cases node with
    | file number =>
      have isFile := folder.isFile_file object short found
      rw [← unseen.alike.contains, contains, path_eq_push pos takes] at absent
      simp [takes.algorithm, isFile] at absent
    | directory =>
      have there := keeps _ _ (by simp) found
      have located := (folder.mono keeps).locate_found (.inl rfl) object short (by simp) there
      have file : (made.putFile (place ++ s.folders signature ++ [name]) data).node?
          (place ++ s.folders signature ++ [name]) = some (.file made.contents.length) := by
        rw [FileSystem.node?_putFile given, if_pos rfl]
      have refused := (above.mono keeps).move_directory usable shortTemporary file located there
      rw [done] at refused
      cases refused
    | link target =>
      rw [List.append_assoc] at found
      exact absurd found (unseen.grounded.noLinks _ target (by simp))

theorem Unseen.published (absent : s.contains fs signature = false) (other : s.object signature ≠ name)
    (done : (made.putFile (place ++ s.folders signature ++ [name]) data).move ((s.plainFolder signature).push name)
      (s.path signature) = .ok moved) : s.Published place signature data made moved := by
  have free := unseen.free_object pos takes short usable shortTemporary spine freeTemporary absent done
  have above := unseen.plainFolder pos takes short spine
  have folder := unseen.folder pos takes short spine
  have object := usable_object pos takes
  rw [path_eq_push pos takes] at short done
  obtain ⟨final, moved, keeps, contents, nodes, unique⟩ :=
    above.move_written usable shortTemporary freeTemporary folder object short free other data
  rw [FileSystem.written_eq_putFile, done] at moved
  obtain rfl := Except.ok.inj moved
  rw [List.append_assoc] at free
  refine ⟨unseen.root.mono keeps, unique rfl unseen.grounded.unique, contents, fun there => ?_, free, spine⟩
  rw [nodes, List.append_assoc]

/-- **Writing a payload**: until the file is moved the store tells what it told, and then
it has the payload. -/
theorem Unseen.write (absent : s.contains fs signature = false) (temporary : isTemporary name = true)
    (ran : (made.steps (writeSteps (s.plainFolder signature) ((s.plainFolder signature).push name) (s.path signature)
      pieces)).1 = .ok ()) :
    ∃ final, made.steps (writeSteps (s.plainFolder signature) ((s.plainFolder signature).push name) (s.path signature)
        pieces) = (.ok (), final) ∧ s.Published place signature pieces.flatten made final ∧
      ∀ front, front <+: writeSteps (s.plainFolder signature) ((s.plainFolder signature).push name) (s.path signature)
        pieces → s.Alike fs (made.steps front).2 ∨ (made.steps front).2 = final := by
  have above := unseen.plainFolder pos takes short spine
  have wrote (pieces : List Bytes) := above.write_pieces usable shortTemporary freeTemporary pieces
  have hidden (bytes : Bytes) : s.Alike fs (made.putFile (place ++ s.folders signature ++ [name]) bytes) := by
    rw [List.append_assoc] at freeTemporary ⊢
    exact unseen.alike_temporary pos temporary freeTemporary bytes
  rw [writeSteps] at ran ⊢
  obtain ⟨-, onward⟩ := FileSystem.steps_of_append ran
  rw [onward, wrote] at ran
  obtain ⟨moved, done, ended, between⟩ := steps_ending ran
  rw [wrote, ended] at onward
  have other : s.object signature ≠ name := by
    rintro rfl
    exact head?_object pos takes (head?_of_temporary temporary)
  refine ⟨moved, onward, unseen.published pos takes short usable shortTemporary spine freeTemporary absent other done,
    fun front within => ?_⟩
  obtain early | ⟨rest, rfl, late⟩ := FileSystem.prefix_append_cases within
  · left
    obtain rfl | ⟨appends, rfl, inner⟩ := List.prefix_cons_iff.1 early
    · exact unseen.alike
    · obtain ⟨written, -, rfl⟩ := List.prefix_map_iff.1 inner
      rw [wrote]
      exact hidden written.flatten
  · rw [FileSystem.steps_append, wrote]
    obtain before | after := between rest late
    · exact .inl (before ▸ hidden pieces.flatten)
    · exact .inr after

end Write

/-- What there is when all steps have been taken, and what is told in between. -/
theorem published_of_steps {name : Bytes} {pieces : List Bytes} (pos : 0 < s.config.segmentWidth)
    (root : fs.DirectoryAt s.root place) (grounded : fs.Grounded place) (takes : s.Takes signature)
    (short : (s.path signature).bytes.length ≤ pathLimit) (absent : s.contains fs signature = false)
    (usable : Usable name) (temporary : isTemporary name = true)
    (ran : (fs.steps (publishSteps fs (s.plainFolder signature) ((s.plainFolder signature).push name)
      (s.path signature) pieces)).1 = .ok ()) :
    ∃ made final, s.Unseen place fs made ∧ s.Published place signature pieces.flatten made final ∧
      fs.steps (publishSteps fs (s.plainFolder signature) ((s.plainFolder signature).push name) (s.path signature)
        pieces) = (.ok (), final) ∧
      ∀ front, front <+: publishSteps fs (s.plainFolder signature) ((s.plainFolder signature).push name)
        (s.path signature) pieces → s.Alike fs (fs.steps front).2 ∨ (fs.steps front).2 = final := by
  have isFolder := isName_folders pos takes
  have top := directoryAt_top root signature
  have isTop := plainFolder_eq root.sound.given pos takes
  have shortFolder := length_folder_le pos takes short
  have row {front : List Step} (within : front <+: fs.directorySteps (s.plainFolder signature)) :
      FileSystem.Grown place (s.folders signature) fs (fs.steps front).2 :=
    top.grown_directorySteps grounded isFolder (isTop ▸ within)
  have start : s.Unseen place fs fs := ⟨root, grounded, .refl s fs⟩
  rw [publishSteps_eq] at ran ⊢
  obtain ⟨first, onward⟩ := FileSystem.steps_of_append ran
  have unseen := start.grown pos takes shortFolder (row (List.prefix_refl _))
  rw [onward] at ran
  obtain ⟨_, empty⟩ := FileSystem.step_of_cons ran
  have isName : ∀ n ∈ s.folders signature ++ [name], Path.IsName n := by
    intro n mem
    obtain mem | mem := List.mem_append.1 mem
    · exact isFolder n mem
    · exact List.mem_singleton.1 mem ▸ usable.toIsName
  obtain ⟨shortTemporary, spine, free, -⟩ := FileSystem.makeFile_cases (directoryAt_top unseen.root signature)
    unseen.grounded.noLinks isName (by rw [← isTop]; exact empty)
  rw [← isTop] at shortTemporary
  obtain ⟨final, wrote, published, between⟩ :=
    unseen.write pos takes short usable shortTemporary spine free absent temporary ran
  rw [wrote] at onward
  refine ⟨_, final, unseen, published, onward, fun front within => ?_⟩
  obtain early | ⟨rest, rfl, late⟩ := FileSystem.prefix_append_cases within
  · exact .inl (start.grown pos takes shortFolder (row early)).alike
  · rw [FileSystem.steps_append, first]
    exact between rest late

/-- What is told of a store while a payload is published, from the first step to the last. -/
structure AllOrNothing (s : Store) (signature : Signature) (data : Bytes) (fs : FileSystem) (all : List Step) :
    Prop where
  /-- After any of the steps the store tells what it told before all of them, or what it tells after them. -/
  between : ∀ front, front <+: all → s.Alike fs (fs.steps front).2 ∨ s.Alike (fs.steps all).2 (fs.steps front).2
  /-- No part of the payload is got, but all of it, or what was got before. -/
  whole : ∀ front, front <+: all → ∀ other bytes, s.get (fs.steps front).2 other = .ok bytes →
    s.get fs other = .ok bytes ∨ bytes = data
  /-- No temporary file is listed, nor anything else but the signature and what was listed before. -/
  listed : ∀ front, front <+: all → ∀ item ∈ s.list (fs.steps front).2, item ∈ s.list fs ∨ item = .ok signature
  /-- In the end the payload is there. -/
  got : s.get (fs.steps all).2 signature = .ok data
  contained : s.contains (fs.steps all).2 signature = true
  inList : .ok signature ∈ s.list (fs.steps all).2

/-- **Publishing is all or nothing.** Let the directory of a store be there, and what is
below it in order and without links. Where a payload whose signature is not contained
is published, in any pieces and under any temporary name, and all steps succeed, then
after any of them the store tells of all signatures what it told before, or what it
tells in the end; and this is how a payload is put, in one piece. -/
theorem publish_all_or_nothing {c : Chunk} {name : Bytes} {pieces : List Bytes} {directory : Path}
    (pos : 0 < s.config.segmentWidth) (root : fs.DirectoryAt s.root place) (grounded : fs.Grounded place)
    (hash : Signature.of s.config.algorithm data = c.signature) (absent : s.contains fs c.signature = false)
    (parent : (s.path c.signature).parent? = some directory) (usable : Usable name)
    (temporary : isTemporary name = true) (whole : pieces.flatten = data)
    (ran : (fs.steps (publishSteps fs directory (directory.push name) (s.path c.signature) pieces)).1 = .ok ()) :
    s.AllOrNothing c.signature data fs (publishSteps fs directory (directory.push name) (s.path c.signature) pieces) ∧
      (pieces = [data] → name = temporaryName fs directory → s.put fs c data = (.ok .stored,
        (fs.steps (publishSteps fs directory (directory.push name) (s.path c.signature) pieces)).2)) := by
  have takes := takes_of_hash hash
  obtain rfl : s.plainFolder c.signature = directory :=
    Option.some.inj ((parent?_path root.sound.given pos takes).symm.trans parent)
  -- a file is only moved to where the path is not too long
  have short : (s.path c.signature).bytes.length ≤ pathLimit := by
    have last : Step.move ((s.plainFolder c.signature).push name) (s.path c.signature) ∈
        publishSteps fs (s.plainFolder c.signature) ((s.plainFolder c.signature).push name) (s.path c.signature) pieces := by
      simp [publishSteps]
    obtain ⟨_, _, done⟩ := FileSystem.step_of_steps ran last
    obtain ⟨_, located⟩ := FileSystem.located_of_move done
    exact (FileSystem.sound_of_locate (.inl rfl) located).short
  obtain ⟨made, final, unseen, published, done, states⟩ :=
    published_of_steps pos root grounded takes short absent usable temporary ran
  rw [whole] at published
  obtain ⟨got, contained, inList⟩ := published.got unseen pos takes short hash
  refine ⟨⟨fun front within => ?_, fun front within other bytes read => ?_, fun front within item mem => ?_, ?_, ?_, ?_⟩,
    fun one named => ?_⟩
  · rw [done]
    obtain alike | same := states front within
    · exact .inl alike
    · rw [same]
      exact .inr (.refl s final)
  · obtain alike | same := states front within
    · exact .inl ((alike.get other).symm.trans read)
    · exact published.get_cases unseen pos takes short (same ▸ read)
  · obtain alike | same := states front within
    · exact .inl ((alike.list item).1 mem)
    · exact (published.mem_list unseen pos takes short).1 (same ▸ mem)
  · rwa [done]
  · rwa [done]
  · rwa [done]
  · subst one named
    have lacks : fs.isFile (s.path c.signature) = false := by simpa [contains, takes.algorithm] using absent
    simp [put_eq_publish, takes.algorithm, hash, lacks, publish_eq_steps, parent, done]

/-- A payload in two pieces, below directories that have to be made. -/
theorem publish_all_or_nothing_pieces :
    let s : Store := ⟨Path.ofText "/s", ⟨.sha256, 10, true⟩⟩
    let fs := FileSystem.empty.put [Bytes.ofText "s"] .directory
    let c : Chunk := ⟨⟨["a"]⟩, .bytes 0 3, Signature.of .sha256 (Bytes.ofText "abc")⟩
    let directory := s.plainFolder c.signature
    let all := publishSteps fs directory (directory.push (Bytes.ofText ".tmpx")) (s.path c.signature)
      [Bytes.ofText "a", Bytes.ofText "bc"]
    fs.DirectoryAt s.root [Bytes.ofText "s"] ∧ fs.Grounded [Bytes.ofText "s"] ∧ s.contains fs c.signature = false ∧
      (fs.steps all).1 = .ok () ∧ all.length = 11 ∧ s.AllOrNothing c.signature (Bytes.ofText "abc") fs all := by
  intro s fs c directory all
  have pos : 0 < s.config.segmentWidth := by decide
  have root : fs.DirectoryAt s.root [Bytes.ofText "s"] := ⟨by rfl, by rfl⟩
  have grounded : fs.Grounded [Bytes.ofText "s"] := (holds_empty root (by rfl)).grounded
  have absent : s.contains fs c.signature = false := by decide +kernel
  have parent : (s.path c.signature).parent? = some directory := parent?_path (by decide) pos (takes_of_hash rfl)
  have ran : (fs.steps all).1 = .ok () := by decide +kernel
  have usable : Usable (Bytes.ofText ".tmpx") := ⟨⟨by decide, by decide, by decide, by decide⟩, by decide, by decide⟩
  have published := publish_all_or_nothing pos root grounded rfl absent parent usable (by decide) (by decide) ran
  exact ⟨root, grounded, absent, ran, by decide +kernel, published.1⟩

/-- **A list may tell of neither end**: if the directory of the store has to be made, then
before the first step it cannot be read, and after it it is empty. -/
theorem list_between :
    let s : Store := ⟨Path.ofText "/s", ⟨.sha256, 60, true⟩⟩
    let fs := FileSystem.empty
    let data := Bytes.ofText "abc"
    let c : Chunk := ⟨⟨["a"]⟩, .bytes 0 3, Signature.of .sha256 data⟩
    let directory := s.plainFolder c.signature
    let all := publishSteps fs directory (directory.push (temporaryName fs directory)) (s.path c.signature) [data]
    (s.path c.signature).parent? = some directory ∧ s.contains fs c.signature = false ∧ (fs.steps all).1 = .ok () ∧
      ¬s.Alike fs (fs.steps (all.take 1)).2 ∧ ¬s.Alike (fs.steps all).2 (fs.steps (all.take 1)).2 := by
  intro s fs data c directory all
  have unread : s.list fs = [.error (.asset s.root (.os .notFound))] := by rfl
  have empty : s.list (fs.steps (all.take 1)).2 = [] := by decide +kernel
  have listed : s.list (fs.steps all).2 = [.ok c.signature] := by decide +kernel
  refine ⟨by decide +kernel, by decide +kernel, by decide +kernel, fun alike => ?_, fun alike => ?_⟩
  · have := (alike.list _).2 (unread ▸ List.mem_singleton_self _)
    simp [empty] at this
  · have := (alike.list _).2 (listed ▸ List.mem_singleton_self _)
    simp [empty] at this

end Store

end ContentChunks
