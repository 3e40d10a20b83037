/-
Objects do not meet. The paths of two digests part at some name: what is a
directory for the one is never the object of the other, because only names of
objects have a dot in them. So a payload that is published stands in the way of no
other one, and leaves what is at the path of any other as it is, whichever
algorithms the signatures are of.

Main statements:
- `Store.Ready.publish`: what nothing is in the way of is published.
- `Store.Ready.leavesAlone_grown`, `Store.Ready.leavesAlone_new`: it leaves other digests alone.
- `Store.Ready.publishedAll`: payloads of different digests are all published and kept.
- `Store.paths_apart`: all this, of any root and width.
-/
import ContentChunks.Proofs.KeyPaths
import ContentChunks.Proofs.Refusing

namespace ContentChunks

namespace Key

variable {s t : Signature} {width : Nat}

theorem components_path_below (pos : 0 < width) (sized : s.Sized) (root : Path) :
    (path root s width).components = root.components ++ (place s width).map .name := by
  by_cases given : root.bytes = []
  · obtain rfl : root = ⟨[]⟩ := by rw [← given]
    rw [components_path pos sized]
    rfl
  · have filled := digest_ne_nil sized
    rw [path_eq pos filled, Path.components_extend given fun _ hn => isName_of_mem_place pos filled hn]

end Key

namespace FileSystem

theorem SameFile.trans {fs made last : FileSystem} {p : Path} (h : SameFile fs made p) (h' : SameFile made last p) :
    SameFile fs last p :=
  ⟨h'.content.trans h.content, h'.isFile.trans h.isFile⟩

end FileSystem

namespace Store

open FileSystem (Grown SameFile pathLimit)

variable {root : Path} {width : Nat} {place : Place} {fs made last : FileSystem} {s t : Signature} {data : Bytes}

/-- Whether the directory of a store is there and in order, and nothing below it has the name of a temporary file. -/
structure Ready (root : Path) (place : Place) (fs : FileSystem) : Prop where
  root : fs.DirectoryAt root place
  grounded : fs.Grounded place
  quiet : ∀ names, fs.node? (place ++ (names ++ [freshName [] 6])) = none

/-- Whether nothing is in the way of the object of a signature: there are at most directories above it, and
nothing is at its place. -/
structure Unblocked (width : Nat) (place : Place) (fs : FileSystem) (s : Signature) : Prop where
  clear : fs.Clear place (Key.folders s width)
  free : fs.node? (place ++ Key.place s width) = none

/-- Whether the paths of the object of a signature and of the temporary file beside it are short enough. -/
structure Near (root : Path) (width : Nat) (s : Signature) : Prop where
  object : (Key.path root s width).bytes.length ≤ pathLimit
  temporary : ((root.extend (Key.folders s width)).push (freshName [] 6)).bytes.length ≤ pathLimit

/-- The store at a root that takes a signature. -/
def taking (root : Path) (width : Nat) (s : Signature) : Store := ⟨root, ⟨s.algorithm, width, true⟩⟩

theorem takes_taking (root : Path) (width : Nat) (sized : s.Sized) : (taking root width s).Takes s := ⟨sized, rfl⟩

/-- **What nothing is in the way of is published**: directories are made on the way, and the object is new. -/
theorem Ready.publish (pos : 0 < width) (sized : s.Sized) (ready : Ready root place fs)
    (way : Unblocked width place fs s) (near : Near root width s) (data : Bytes) :
    ∃ made last, Store.publish fs (Key.path root s width) data = (.ok (), last) ∧
      Grown place (Key.folders s width) fs made ∧ (taking root width s).Published place s data made last := by
  have takes := takes_taking root width sized
  have shortFolder := length_folder_le pos takes near.object
  have quiet (more : List Bytes) : fs.node? (place ++ (Key.folders s width ++ freshName [] 6 :: more)) = none := by
    have free := ready.grounded.free (by simp) (ready.quiet (Key.folders s width)) more
    rwa [List.append_assoc, List.singleton_append] at free
  obtain ⟨made, ran, grown, spine, above, named⟩ := folder_made pos takes ready.root ready.grounded.unique
    ready.grounded.noLinks way.clear quiet (Nat.le_trans (length_plainFolder_le _ s) shortFolder)
  have root' := ready.root.mono grown.keeps
  have free := grown.free way.free
  obtain ⟨last, done, keeps, contents, nodes, unique⟩ := publish_new pos takes root' ran spine above named near.object
    (length_temporary_le ready.root.sound.given pos takes near.temporary) free (grown.free (quiet [])) data
  exact ⟨made, last, done, grown, root'.mono keeps, unique (grown.grounded ready.grounded).unique, contents, nodes, free,
    spine⟩

/-! ## What is left alone -/

/-- Whether a store stays ready, and of some signatures nothing changes: the same is at their paths, and nothing
comes in their way. -/
structure LeavesAlone (root : Path) (width : Nat) (place : Place) (these : Signature → Prop) (fs last : FileSystem) :
    Prop where
  ready : Ready root place last
  same : ∀ t, t.Sized → these t → SameFile fs last (Key.path root t width)
  unblocked : ∀ t, t.Sized → these t → Unblocked width place fs t → Unblocked width place last t

variable {these those : Signature → Prop}

theorem LeavesAlone.refl (ready : Ready root place fs) : LeavesAlone root width place these fs fs :=
  ⟨ready, fun _ _ _ => ⟨rfl, rfl⟩, fun _ _ _ way => way⟩

theorem LeavesAlone.trans (h : LeavesAlone root width place these fs made)
    (h' : LeavesAlone root width place those made last) :
    LeavesAlone root width place (fun t => these t ∧ those t) fs last where
  ready := h'.ready
  same t sized both := (h.same t sized both.1).trans (h'.same t sized both.2)
  unblocked t sized both way := h'.unblocked t sized both.2 (h.unblocked t sized both.1 way)

theorem LeavesAlone.mono (h : LeavesAlone root width place these fs last) (within : ∀ t, those t → these t) :
    LeavesAlone root width place those fs last where
  ready := h.ready
  same t sized mem := h.same t sized (within t mem)
  unblocked t sized mem := h.unblocked t sized (within t mem)

section Steps

variable (pos : 0 < width) (sized : s.Sized) (ready : Ready root place fs)
include pos sized ready

section Grown

variable (grown : Grown place (Key.folders s width) fs made)
include grown

theorem Ready.with_folders : Ready root place made := by
  refine ⟨ready.root.mono grown.keeps, grown.grounded ready.grounded, fun names => ?_⟩
  rw [grown.node?_of_apart, ready.quiet]
  intro init within same
  have folder : freshName [] 6 ∈ Key.folders s width := within.subset (by simp [← List.append_cancel_left same])
  exact Key.head?_ne_dot pos (Key.digest_ne_nil sized) (List.mem_append_left _ folder) head?_temporary

omit pos sized ready in
theorem Unblocked.with_folders (way : Unblocked width place fs t) : Unblocked width place made t := by
  refine ⟨grown.clear way.clear, ?_⟩
  rw [grown.node?_of_apart, way.free]
  intro init within same
  have folder : Key.object t width ∈ Key.folders s width :=
    within.subset (by simp [← List.append_cancel_left same, Key.place])
  exact absurd rfl (Key.folder_ne_object folder)

theorem Ready.sameFile_grown (t : Signature) : SameFile fs made (Key.path root t width) := by
  have takes := takes_taking root width sized
  induction grown with
  | same => exact ⟨rfl, rfl⟩
  | @made last init name grown within spine free ih =>
    have above := ready.root.mono grown.keeps
    have after : (last.put (place ++ (init ++ [name])) .directory).DirectoryAt root place :=
      above.mono (FileSystem.keeps_put (by simp) free)
    exact ih.trans (sameFile_of_folder (s := taking root width s) pos above after (grown.grounded ready.grounded) takes
      within spine free (List.prefix_refl _) (fun _ => FileSystem.node?_put (by simp)) t)

/-- **Directories above an object leave all objects alone.** -/
theorem Ready.leavesAlone_grown : LeavesAlone root width place these fs made :=
  ⟨ready.with_folders pos sized grown, fun t _ _ => ready.sameFile_grown pos sized grown t, fun _ _ _ way =>
    way.with_folders grown⟩

end Grown

omit sized in
theorem Ready.leavesAlone_spent (data : Bytes) : LeavesAlone root width place these fs (fs.spent data) := by
  have root' := ready.root.mono (FileSystem.keeps_spent fs data)
  have grounded : (fs.spent data).Grounded place := by
    refine ⟨ready.grounded.unique, ready.grounded.above, ready.grounded.noLinks, fun names number given there => ?_⟩
    exact Nat.lt_of_lt_of_le (ready.grounded.filled names number given there) (List.prefix_append _ [data]).length_le
  refine ⟨⟨root', grounded, ready.quiet⟩, fun t _ _ => ?_, fun _ _ _ way => ⟨way.clear, way.free⟩⟩
  exact sameFile_spent (s := taking root width t) pos ready.root ready.grounded data t

/-- **A payload that is refused leaves all objects alone**, that of its own signature too. -/
theorem Ready.leavesAlone_refused {fault : Fault}
    (refused : Store.publish fs (Key.path root s width) data = (.error fault, last)) :
    LeavesAlone root width place these fs last := by
  have refused : Store.publish fs ((taking root width s).path s) data = (.error fault, last) := refused
  obtain rfl | ⟨-, made, grown, rfl | ⟨bytes, rfl⟩⟩ :=
    publish_refused pos ready.root ready.grounded (takes_taking root width sized) refused
  · exact .refl ready
  · exact ready.leavesAlone_grown pos sized grown
  · have after : LeavesAlone root width place these fs made := ready.leavesAlone_grown pos sized grown
    exact (after.trans (after.ready.leavesAlone_spent pos bytes)).mono fun _ mem => ⟨mem, mem⟩

/-- **A new object leaves those of other digests alone.** -/
theorem Ready.leavesAlone_new (new : (taking root width s).Published place s data fs last) :
    LeavesAlone root width place (fun t => t.digest ≠ s.digest) fs last := by
  refine ⟨⟨new.root, new.grounded ready.grounded, fun names => ?_⟩, fun t otherSized differ => ?_, fun t otherSized differ way =>
    ⟨fun init within filled => ?_, ?_⟩⟩
  · rw [new.nodes, if_neg, ready.quiet]
    intro same
    obtain ⟨-, last⟩ := List.append_inj' (List.append_cancel_left same) rfl
    exact object_ne_temporary pos (takes_taking root width sized) (List.singleton_inj.1 last).symm
  · refine sameFile_of_hidden (s := taking root width s) pos ready.root new.root ready.grounded
      ⟨[data], new.contents.symm⟩ new.nodes (fun _ inside => ?_) (by simp)
    exact differ (Key.digest_eq_of_prefix pos (Key.digest_ne_nil sized) (Key.digest_ne_nil otherSized) inside).symm
  · rw [new.nodes, if_neg]
    · exact way.clear init within filled
    intro same
    have folder : Key.object s width ∈ Key.folders t width :=
      within.subset (List.append_cancel_left same ▸ List.mem_append_right _ (List.mem_singleton_self _))
    exact absurd rfl (Key.folder_ne_object folder)
  · rw [new.nodes, if_neg, way.free]
    exact fun same => differ (Key.digest_eq_of_place pos (Key.digest_ne_nil sized) (Key.digest_ne_nil otherSized)
        (List.append_cancel_left same))

end Steps

/-! ## One payload, and one after the other -/

/-- **A payload that nothing stands in the way of is published**, and the other digests are left alone. -/
theorem Ready.published (pos : 0 < width) (sized : s.Sized) (ready : Ready root place fs)
    (way : Unblocked width place fs s) (near : Near root width s) (data : Bytes) :
    ∃ last, Store.publish fs (Key.path root s width) data = (.ok (), last) ∧
      last.contentAt (Key.path root s width) = .ok data ∧
      LeavesAlone root width place (fun t => t.digest ≠ s.digest) fs last := by
  obtain ⟨made, last, done, grown, new⟩ := ready.publish pos sized way near data
  have before : LeavesAlone root width place (fun t => t.digest ≠ s.digest) fs made :=
    ready.leavesAlone_grown pos sized grown
  have after := before.ready.leavesAlone_new pos sized new
  exact ⟨last, done, (new.contentAt pos (takes_taking root width sized) near.object).1,
    (before.trans after).mono fun _ differ => ⟨differ, differ⟩⟩

/-- Publishes payloads at the paths of their signatures, one after the other, until one is refused. -/
def publishAll (root : Path) (width : Nat) (fs : FileSystem) : List (Signature × Bytes) → Except Fault Unit × FileSystem
  | [] => (.ok (), fs)
  | (s, data) :: rest =>
    match publish fs (Key.path root s width) data with
    | (.ok (), fs) => publishAll root width fs rest
    | (.error fault, fs) => (.error fault, fs)

/-- **Payloads of different digests are all published**, and each is kept. -/
theorem Ready.publishedAll (pos : 0 < width) (ready : Ready root place fs) {objects : List (Signature × Bytes)}
    (free : ∀ o ∈ objects, o.1.Sized ∧ Unblocked width place fs o.1 ∧ Near root width o.1)
    (differ : objects.Pairwise fun o p => o.1.digest ≠ p.1.digest) :
    ∃ last, publishAll root width fs objects = (.ok (), last) ∧
      (∀ o ∈ objects, last.contentAt (Key.path root o.1 width) = .ok o.2) ∧
      LeavesAlone root width place (fun t => ∀ o ∈ objects, t.digest ≠ o.1.digest) fs last := by
  induction objects generalizing fs with
  | nil => exact ⟨fs, rfl, by simp, .refl ready⟩
  | cons o objects ih =>
    obtain ⟨s, data⟩ := o
    obtain ⟨⟨sized, way, near⟩, freeRest⟩ := List.forall_mem_cons.1 free
    obtain ⟨first, rest⟩ := List.pairwise_cons.1 differ
    obtain ⟨next, done, stored, alone⟩ := ready.published pos sized way near data
    have still : ∀ o ∈ objects, o.1.Sized ∧ Unblocked width place next o.1 ∧ Near root width o.1 := by
      intro o mem
      obtain ⟨sized, way, near⟩ := freeRest o mem
      exact ⟨sized, alone.unblocked o.1 sized (first o mem).symm way, near⟩
    obtain ⟨last, all, kept, later⟩ := ih alone.ready still rest
    refine ⟨last, by rw [publishAll, done]; exact all, ?_, (alone.trans later).mono fun t => List.forall_mem_cons.1⟩
    exact List.forall_mem_cons.2 ⟨(later.same s sized first).content.trans stored, kept⟩

/-- An empty directory is ready, and nothing is in the way of any object there. -/
theorem ready_of_empty (root' : fs.DirectoryAt root place) (empty : fs.below place = []) :
    Ready root place fs ∧ ∀ s, Unblocked width place fs s := by
  have holds : Holds ⟨root, ⟨.sha256, 1, true⟩⟩ place fs ∅ := holds_empty root' empty
  refine ⟨⟨root', holds.grounded, fun names => FileSystem.node?_of_below_nil empty (by simp)⟩, fun s => ⟨?_, ?_⟩⟩
  · exact fun init _ given => .inl (FileSystem.node?_of_below_nil empty given)
  · exact FileSystem.node?_of_below_nil empty (by simp [Key.place])

/-- **Objects never meet.** Whatever the root and the width, the path of an object goes on from the root with
folders of that width and a name that is no longer but for its ending, which spell the digest. Of two digests,
be they of one algorithm or of two, neither has a path that is that of the other or above it. So nothing is in the
way of any object in an empty store, and a payload that nothing is in the way of is published and leaves other
digests alone; one that is refused leaves all alone; and payloads of different digests are all kept. -/
theorem paths_apart (pos : 0 < width) (root : Path) :
    (∀ s : Signature, s.Sized → ∃ folders stem,
      (Key.path root s width).components = root.components ++ (folders ++ [stem ++ Key.ending]).map .name ∧
      (∀ folder ∈ folders, folder.length = width) ∧ stem ≠ [] ∧ stem.length ≤ width ∧
      folders.flatten ++ stem = Base32.encode s.digest) ∧
    (∀ s t : Signature, s.Sized → t.Sized → s.digest ≠ t.digest →
      ¬(Key.path root s width).components <+: (Key.path root t width).components ∧
      ¬(Key.path root t width).components <+: (Key.path root s width).components) ∧
    (∀ place fs, fs.DirectoryAt root place → fs.below place = [] →
      Ready root place fs ∧ ∀ s, Unblocked width place fs s) ∧
    ∀ place fs, Ready root place fs →
      (∀ (s : Signature) (data : Bytes), s.Sized → Unblocked width place fs s → Near root width s →
        ∃ last, publish fs (Key.path root s width) data = (.ok (), last) ∧
          last.contentAt (Key.path root s width) = .ok data ∧
          LeavesAlone root width place (fun t => t.digest ≠ s.digest) fs last) ∧
      (∀ (s : Signature) (data : Bytes) (fault : Fault) (last : FileSystem), s.Sized →
        publish fs (Key.path root s width) data = (.error fault, last) →
        LeavesAlone root width place (fun _ => True) fs last) ∧
      ∀ objects : List (Signature × Bytes),
        (∀ o ∈ objects, o.1.Sized ∧ Unblocked width place fs o.1 ∧ Near root width o.1) →
        (objects.Pairwise fun o p => o.1.digest ≠ p.1.digest) →
        ∃ last, publishAll root width fs objects = (.ok (), last) ∧
          (∀ o ∈ objects, last.contentAt (Key.path root o.1 width) = .ok o.2) ∧
          LeavesAlone root width place (fun t => ∀ o ∈ objects, t.digest ≠ o.1.digest) fs last := by
  have apart (s t : Signature) (sized : s.Sized) (otherSized : t.Sized) (differ : s.digest ≠ t.digest) :
      ¬(Key.path root s width).components <+: (Key.path root t width).components := by
    intro within
    rw [Key.components_path_below pos sized, Key.components_path_below pos otherSized,
      List.prefix_append_right_inj, List.prefix_map_iff_of_injective fun _ _ => Path.Component.name.inj] at within
    exact differ (Key.digest_eq_of_prefix pos (Key.digest_ne_nil sized) (Key.digest_ne_nil otherSized) within)
  refine ⟨fun s sized => ?_, fun s t sized otherSized differ => ⟨apart s t sized otherSized differ,
    apart t s otherSized sized differ.symm⟩, fun place fs directory empty => ready_of_empty directory empty,
    fun place fs ready => ⟨fun s data sized way near => ready.published pos sized way near data,
      fun s data fault last sized refused => ready.leavesAlone_refused pos sized refused,
      fun objects free differ => ready.publishedAll pos free differ⟩⟩
  obtain ⟨stem, names, object, length, filled, short⟩ := Key.exists_stem pos (Key.digest_ne_nil sized)
  refine ⟨Key.folders s width, stem, ?_, length, filled, short, ?_⟩
  · rw [Key.components_path_below pos sized, Key.place, object]
  · rw [← Key.flatten_names s width, names, List.flatten_append, List.flatten_singleton]

/-- Two digests of zeros, where the width divides the shorter key: the last name of it, but for the ending, is that of
a folder of the longer one. -/
theorem paths_apart_zeros :
    let root := Path.ofText "/s"
    let fs := FileSystem.empty.put [Bytes.ofText "s"] .directory
    let s : Signature := ⟨.sha256, List.replicate 32 0⟩
    let t : Signature := ⟨.sha512, List.replicate 64 0⟩
    let objects := [(s, Bytes.ofText "a"), (t, Bytes.ofText "b")]
    0 < 26 ∧ Ready root [Bytes.ofText "s"] fs ∧
      (∀ o ∈ objects, o.1.Sized ∧ Unblocked 26 [Bytes.ofText "s"] fs o.1 ∧ Near root 26 o.1) ∧
      (objects.Pairwise fun o p => o.1.digest ≠ p.1.digest) ∧
      Key.object s 26 = List.replicate 26 0x41 ++ Key.ending ∧
      Key.place t 26 = List.replicate 3 (List.replicate 26 0x41) ++ [List.replicate 25 0x41 ++ Key.ending] ∧
      ¬(Key.path root s 26).components <+: (Key.path root t 26).components ∧
      ∃ last, publishAll root 26 fs objects = (.ok (), last) ∧
        last.contentAt (Key.path root s 26) = .ok (Bytes.ofText "a") ∧
        last.contentAt (Key.path root t 26) = .ok (Bytes.ofText "b") := by
  intro root fs s t objects
  have pos : 0 < 26 := by decide
  have directory : fs.DirectoryAt root [Bytes.ofText "s"] := ⟨by rfl, by rfl⟩
  obtain ⟨-, apart, empty, storing⟩ := paths_apart pos root
  obtain ⟨ready, unblocked⟩ := empty _ fs directory (by rfl)
  have sized : s.Sized := by decide
  have otherSized : t.Sized := by decide
  have near : Near root 26 s := ⟨by decide +kernel, by decide +kernel⟩
  have otherNear : Near root 26 t := ⟨by decide +kernel, by decide +kernel⟩
  have free : ∀ o ∈ objects, o.1.Sized ∧ Unblocked 26 [Bytes.ofText "s"] fs o.1 ∧ Near root 26 o.1 :=
    List.forall_mem_cons.2 ⟨⟨sized, unblocked s, near⟩, List.forall_mem_singleton.2 ⟨otherSized, unblocked t, otherNear⟩⟩
  have differ : s.digest ≠ t.digest := by decide
  have pairs : objects.Pairwise fun o p => o.1.digest ≠ p.1.digest := List.pairwise_pair.2 differ
  obtain ⟨last, done, kept, -⟩ := (storing _ fs ready).2.2 objects free pairs
  obtain ⟨here, there⟩ := List.forall_mem_cons.1 kept
  exact ⟨pos, ready, free, pairs, by decide +kernel, by decide +kernel, (apart s t sized otherSized differ).1, last, done,
    here, there (t, Bytes.ofText "b") (List.mem_singleton_self _)⟩

end Store

end ContentChunks
