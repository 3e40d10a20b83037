/-
Which signatures a store has, as each of its operations sees it. A key tells a
digest and not its algorithm, so a signature of another algorithm leads to the
object of the store's own signature with the same digest. What is put and what is
contained is checked for its algorithm; what is got and what is deleted is not.

Main statements:
- `Holds.isFile_iff`, `Holds.lookup_of_contentAt`, `Holds.unlink_eq_ok`: what the path of a
  signature of any algorithm leads to.
- `Holds.kept`: a store has the payloads of some map after any calls, also where paths
  are too long.
- `agrees_iff`: the operations agree about a signature, unless it is of another
  algorithm and has the digest of one that is contained.
-/
import ContentChunks.Proofs.Listing

namespace ContentChunks.Store

open FileSystem (pathLimit)

variable {s : Store} {place : Place} {fs : FileSystem} {m : Payloads} {signature : Signature} {data : Bytes}

/-! ## Signatures of any algorithm -/

/-- The signature of the store's algorithm that has the same digest, and so the same key. -/
def own (s : Store) (signature : Signature) : Signature := ⟨s.config.algorithm, signature.digest⟩

theorem own_of_algorithm (algorithm : signature.algorithm = s.config.algorithm) : s.own signature = signature := by
  rw [own, ← algorithm]

theorem path_own (s : Store) (signature : Signature) : s.path (s.own signature) = s.path signature := rfl

theorem contains_own : s.contains fs (s.own signature) = fs.isFile (s.path signature) := by
  rw [contains, path_own]
  simp [own]

theorem Holds.tree (h : s.Holds place fs m) (pos : 0 < s.config.segmentWidth) : fs.Tree place := by
  have found {names : Place} {node : Node} (listed : (names, node) ∈ fs.below place) :=
    (FileSystem.mem_below_iff h.unique).1 listed
  refine ⟨h.unique, ?_, ?_, ?_⟩
  · intro (names, node) listed name hname
    obtain ⟨other, takes, key⟩ := h.exists_key (found listed).2 hname
    exact Key.usable_of_mem_place pos takes.sized key
  · intro (names, node) listed deep
    obtain ⟨given, here⟩ := found listed
    obtain ⟨front, last, rfl⟩ := List.eq_nil_or_concat names |>.resolve_left given
    rw [List.concat_eq_append] at *
    have filled : front ≠ [] := by
      rintro rfl
      exact deep rfl
    rw [List.dropLast_concat]
    exact (FileSystem.mem_below_iff h.unique).2 ⟨filled, h.above front last filled (by simp [here])⟩
  · rintro ⟨names, node⟩ listed target rfl
    exact h.entry names _ (found listed).1 (found listed).2

section Sized

variable (h : s.Holds place fs m) (pos : 0 < s.config.segmentWidth) (sized : signature.Sized)
include pos sized

theorem path_eq_place : s.path signature = s.root.extend (Key.place signature s.config.segmentWidth) :=
  Key.path_eq pos (Key.digest_ne_nil sized) s.root

include h

/-- A file at the key of a signature is the object of the store's own signature. -/
theorem Holds.lookup_own {number : Nat}
    (file : fs.node? (place ++ Key.place signature s.config.segmentWidth) = some (.file number)) :
    ∃ data, m.lookup (s.own signature) = some data ∧ fs.contents[number]? = some data := by
  obtain ⟨other, data, has, same, content⟩ := h.entry _ _ (by simp [Key.place]) file
  have takes := (h.held other data has).1
  have digest : other.digest = signature.digest := Key.digest_eq_of_place pos (Key.digest_ne_nil sized)
    (Key.digest_ne_nil takes.sized) same.symm
  obtain rfl : other = s.own signature := congrArg₂ Signature.mk takes.algorithm digest
  exact ⟨data, has, content⟩

/-- **The path of a signature leads to a file** if the store has the payload of its
own signature with the same digest, unless the path is too long. -/
theorem Holds.isFile_iff : fs.isFile (s.path signature) = true ↔
    s.own signature ∈ m ∧ (s.path signature).bytes.length ≤ pathLimit := by
  have tree := h.tree pos
  rw [path_eq_place pos sized,
    tree.isFile_iff h.root (fun _ hn => Key.usable_of_mem_place pos sized hn) (by simp [Key.place])]
  refine and_congr_left' ⟨?_, ?_⟩
  · intro there
    obtain ⟨number, listed⟩ := there
    obtain ⟨-, file⟩ := (FileSystem.mem_below_iff h.unique).1 listed
    obtain ⟨data, has, -⟩ := h.lookup_own pos sized file
    exact Finmap.mem_of_lookup_eq_some has
  · intro mem
    obtain ⟨data, has⟩ := Finmap.mem_iff.1 mem
    obtain ⟨-, -, number, file⟩ := h.held _ data has
    exact ⟨number, (FileSystem.mem_below_iff h.unique).2 ⟨by simp [Key.place], file⟩⟩

/-- What is read there is the payload of the store's own signature. -/
theorem Holds.lookup_of_contentAt (read : fs.contentAt (s.path signature) = .ok data) :
    fs.isFile (s.path signature) = true ∧ m.lookup (s.own signature) = some data := by
  obtain ⟨there, number, reached, file, content⟩ := FileSystem.contentAt_eq_ok.1 read
  obtain ⟨sound, walked⟩ := FileSystem.reach_iff.1 reached
  have located := (FileSystem.locate_eq (.inr rfl) sound).trans walked
  refine ⟨FileSystem.isFile_iff_found.2 ⟨there, number, located, file⟩, ?_⟩
  rw [path_eq_place pos sized] at located
  obtain ⟨rfl, -⟩ := h.root.place_of_locate (h.tree pos).noLinks (.inr rfl)
    (fun _ hn => (Key.usable_of_mem_place pos sized hn).toIsName) (by simp [Key.place]) located
  obtain ⟨payload, has, same⟩ := h.lookup_own pos sized file
  rw [has, ← content, FileSystem.content, same, Option.getD_some]

/-- What is removed there is the object of the store's own signature. -/
theorem Holds.unlink_eq_ok {last : FileSystem} : fs.unlink (s.path signature) = .ok last ↔
    fs.isFile (s.path signature) = true ∧ last = fs.drop (place ++ Key.place signature s.config.segmentWidth) := by
  rw [path_eq_place pos sized]
  exact (h.tree pos).unlink_eq_ok h.root (fun _ hn => Key.usable_of_mem_place pos sized hn) (by simp [Key.place])

end Sized

/-! ## Any calls -/

/-- The file system after calls. -/
def after (s : Store) (fs : FileSystem) : List Call → FileSystem
  | [] => fs
  | c :: rest => s.after (s.call fs c).2 rest

section Kept

variable (h : s.Holds place fs m) (pos : 0 < s.config.segmentWidth)
include h pos

theorem Holds.kept_publish (hash : Signature.of s.config.algorithm data = signature)
    (lacks : fs.isFile (s.path signature) = false) :
    ∃ payloads, s.Holds place (Store.publish fs (s.path signature) data).2 payloads := by
  have takes := takes_of_hash hash
  by_cases short : (s.path signature).bytes.length ≤ pathLimit ∧
      ((s.plainFolder signature).push (freshName [] 6)).bytes.length ≤ pathLimit
  · have absent : signature ∉ m := by
      intro mem
      rw [← own_of_algorithm takes.algorithm] at mem
      have := (h.isFile_iff pos takes.sized).2 ⟨mem, short.1⟩
      rw [lacks] at this
      cases this
    obtain ⟨last, published, holds, -⟩ :=
      h.publish pos takes short.1 short.2 (Finmap.lookup_eq_none.2 absent) hash
    exact ⟨_, by rwa [published]⟩
  · rw [not_and_or, Nat.not_le, Nat.not_le] at short
    obtain ⟨fault, last, refused, holds⟩ := h.publish_long pos takes short data
    exact ⟨m, by rwa [refused]⟩

theorem Holds.kept_put (c : Chunk) (data : Bytes) : ∃ payloads, s.Holds place (s.put fs c data).2 payloads := by
  rw [put_eq_publish]
  dsimp only
  split
  · exact ⟨m, h⟩
  · split
    · exact ⟨m, h⟩
    · rename_i hash
      split
      · exact ⟨m, h⟩
      · rename_i lacks
        have kept := h.kept_publish pos (not_not.1 hash) (Bool.eq_false_iff.2 lacks)
        split <;> (rename_i published; rwa [published] at kept)

theorem Holds.kept_delete (sized : signature.Sized) :
    ∃ payloads, s.Holds place (s.delete fs signature).2 payloads := by
  unfold Store.delete
  split
  · rename_i last removed
    obtain ⟨isFile, rfl⟩ := (h.unlink_eq_ok pos sized).1 removed
    obtain ⟨mem, -⟩ := (h.isFile_iff pos sized).1 isFile
    obtain ⟨data, has⟩ := Finmap.mem_iff.1 mem
    exact ⟨m.erase (s.own signature), h.removed pos has⟩
  · exact ⟨m, h⟩
  · exact ⟨m, h⟩

theorem Holds.kept_call (c : Call) (sized : ∀ signature, c.signature? = some signature → signature.Sized) :
    ∃ payloads, s.Holds place (s.call fs c).2 payloads := by
  cases c with
  | put c data => exact h.kept_put pos c data
  | putFromAsset c base =>
    simp only [Store.call, putFromAsset_eq_put]
    split
    · exact ⟨m, h⟩
    · split
      · exact ⟨m, h⟩
      · exact h.kept_put pos c _
  | get signature => exact ⟨m, h⟩
  | contains signature => exact ⟨m, h⟩
  | delete signature => exact h.kept_delete pos (sized signature rfl)
  | list => exact ⟨m, h⟩

/-- **Any calls leave the directory of a store in order**, with the payloads of some map in it. -/
theorem Holds.kept {calls : List Call}
    (sized : ∀ c ∈ calls, ∀ signature, c.signature? = some signature → signature.Sized) :
    ∃ payloads, s.Holds place (s.after fs calls) payloads := by
  induction calls generalizing fs m with
  | nil => exact ⟨m, h⟩
  | cons c calls ih =>
    obtain ⟨payloads, holds⟩ := h.kept_call pos c (sized c List.mem_cons_self)
    exact ih holds fun other mem => sized other (List.mem_cons_of_mem c mem)

end Kept

/-! ## Agreement -/

/-- Whether the operations of a store agree about a signature: if it is not contained,
nothing is got for it and nothing is deleted; and what is got for it has it. -/
structure Agrees (s : Store) (fs : FileSystem) (signature : Signature) : Prop where
  get : s.contains fs signature = false → ∀ data, s.get fs signature ≠ .ok data
  delete : s.contains fs signature = false → (s.delete fs signature).1 ≠ .ok true
  unchanged : s.contains fs signature = false →
    (∀ other, s.get (s.delete fs signature).2 other = s.get fs other) ∧
      (∀ other, s.contains (s.delete fs signature).2 other = s.contains fs other) ∧
      s.list (s.delete fs signature).2 = s.list fs
  hash : ∀ data, s.get fs signature = .ok data → Signature.of signature.algorithm data = signature

section Agreement

variable (h : s.Holds place fs m) (pos : 0 < s.config.segmentWidth) (sized : signature.Sized)
include h pos sized

theorem Holds.get_ne_ok (lacks : fs.isFile (s.path signature) = false) : s.get fs signature ≠ .ok data := by
  intro got
  obtain ⟨isFile, -⟩ := h.lookup_of_contentAt pos sized (contentAt_of_get got)
  rw [lacks] at isFile
  cases isFile

theorem Holds.delete_eq_self (lacks : fs.isFile (s.path signature) = false) :
    (s.delete fs signature).1 ≠ .ok true ∧ (s.delete fs signature).2 = fs := by
  unfold Store.delete
  split
  · rename_i last removed
    obtain ⟨isFile, -⟩ := (h.unlink_eq_ok pos sized).1 removed
    rw [lacks] at isFile
    cases isFile
  · exact ⟨by simp, rfl⟩
  · exact ⟨by simp, rfl⟩

/-- Whatever the algorithm of a signature, what is got for it hashes to its digest
under the algorithm of the store. -/
theorem Holds.hash_of_get (got : s.get fs signature = .ok data) :
    Signature.of s.config.algorithm data = s.own signature := by
  obtain ⟨-, has⟩ := h.lookup_of_contentAt pos sized (contentAt_of_get got)
  exact (h.held _ data has).2.1

theorem Holds.agrees (lacks : signature.algorithm = s.config.algorithm ∨ s.contains fs (s.own signature) = false) :
    s.Agrees fs signature := by
  have free (absent : s.contains fs signature = false) : fs.isFile (s.path signature) = false := by
    rcases lacks with algorithm | lacks
    · rw [← contains_own, own_of_algorithm algorithm, absent]
    · rw [← contains_own, lacks]
  refine ⟨fun absent _ => h.get_ne_ok pos sized (free absent),
    fun absent => (h.delete_eq_self pos sized (free absent)).1, fun absent => ?_, fun data got => ?_⟩
  · rw [(h.delete_eq_self pos sized (free absent)).2]
    exact ⟨fun _ => rfl, fun _ => rfl, rfl⟩
  · rcases lacks with algorithm | lacks
    · have hash := h.hash_of_get pos sized got
      rwa [own_of_algorithm algorithm, ← algorithm] at hash
    · exact absurd got (h.get_ne_ok pos sized (by rw [← contains_own, lacks]))

theorem Holds.not_agrees (foreign : signature.algorithm ≠ s.config.algorithm)
    (has : s.contains fs (s.own signature) = true) : ¬s.Agrees fs signature := by
  intro agrees
  have absent : s.contains fs signature = false := by simp [contains, foreign]
  have removed := (h.unlink_eq_ok pos sized).2 ⟨contains_own.symm.trans has, rfl⟩
  refine agrees.delete absent ?_
  rw [Store.delete, removed]

end Agreement

/-- **When the operations of a store agree about a signature.** After any calls of a
store whose directory was empty they agree about a signature just if it is of the
store's algorithm, or else its digest is not that of a signature that is contained. -/
theorem agrees_iff {before : FileSystem} {root : Path} {config : StoreConfig} {calls : List Call}
    (opened : openAt before root config = (.ok s, fs)) (directory : fs.DirectoryAt root place)
    (empty : fs.below place = [])
    (calledSized : ∀ c ∈ calls, ∀ signature, c.signature? = some signature → signature.Sized)
    (sized : signature.Sized) :
    s.Agrees (s.after fs calls) signature ↔
      signature.algorithm = config.algorithm ∨
        s.contains (s.after fs calls) ⟨config.algorithm, signature.digest⟩ = false := by
  obtain ⟨rfl, pos⟩ := openAt_eq_ok opened
  have start : Holds ⟨root, config⟩ place fs ∅ := holds_empty directory empty
  obtain ⟨m, h⟩ := start.kept pos calledSized
  constructor
  · intro agrees
    by_contra neither
    rw [not_or, Bool.not_eq_false] at neither
    exact h.not_agrees pos sized neither.1 neither.2 agrees
  · exact h.agrees pos sized

/-- A payload is put, and then the digest is told under another algorithm. -/
theorem agrees_iff_foreign :
    let s : Store := ⟨Path.ofText "/s", ⟨.sha256, 10, true⟩⟩
    let fs := FileSystem.empty.put [Bytes.ofText "s"] .directory
    let data := Bytes.ofText "abc"
    let c : Chunk := ⟨⟨["a"]⟩, .bytes 0 3, Signature.of .sha256 data⟩
    s.Agrees (s.after fs [.put c data]) c.signature ∧
      ¬s.Agrees (s.after fs [.put c data]) ⟨.blake3, c.signature.digest⟩ := by
  intro s fs data c
  have pos : 0 < s.config.segmentWidth := by decide
  have directory : fs.DirectoryAt (Path.ofText "/s") [Bytes.ofText "s"] := ⟨by rfl, by rfl⟩
  have empty : fs.below [Bytes.ofText "s"] = [] := by rfl
  have opened : Store.openAt fs (Path.ofText "/s") s.config = (.ok s, fs) := openAt_directory directory pos
  have sized : c.signature.Sized := Signature.sized_of _ _
  have calledSized : ∀ call ∈ [Call.put c data], ∀ signature, call.signature? = some signature → signature.Sized := by
    simpa [Call.signature?] using sized
  have holds : s.Holds _ fs ∅ := holds_empty directory empty
  have has : s.contains (s.after fs [.put c data]) c.signature = true := by
    have takes : s.Takes c.signature := takes_of_hash rfl
    have fits : s.Fits := fits_of_length pos (by decide)
    obtain ⟨-, stored, -⟩ := holds.put pos fits takes data
    rw [Payloads.put_new rfl Finmap.notMem_empty] at stored
    exact (stored.contains_eq pos fits takes).trans (by simp [Finmap.mem_insert])
  refine ⟨(agrees_iff opened directory empty calledSized sized).2 (.inl rfl), fun agrees => ?_⟩
  have foreign : (⟨.blake3, c.signature.digest⟩ : Signature).Sized := sized
  rcases (agrees_iff opened directory empty calledSized foreign).1 agrees with same | lacks
  · cases same
  · exact absurd has (Bool.eq_false_iff.1 lacks)

/-- For a signature that is not contained a payload is got that does not have it,
and another signature is deleted. -/
theorem deleted_under_foreign_algorithm :
    let s : Store := ⟨Path.ofText "/s", ⟨.sha256, 10, false⟩⟩
    let fs := FileSystem.empty.put [Bytes.ofText "s"] .directory
    let data := Bytes.ofText "abc"
    let c : Chunk := ⟨⟨["a"]⟩, .bytes 0 3, Signature.of .sha256 data⟩
    let foreign : Signature := ⟨.blake3, c.signature.digest⟩
    let stored := s.after fs [.put c data]
    Store.openAt fs (Path.ofText "/s") s.config = (.ok s, fs) ∧ fs.below [Bytes.ofText "s"] = [] ∧ foreign.Sized ∧
      s.contains stored foreign = false ∧ s.get stored foreign = .ok data ∧ Signature.of .blake3 data ≠ foreign ∧
      (s.delete stored foreign).1 = .ok true ∧ s.contains stored c.signature = true ∧
      s.contains (s.delete stored foreign).2 c.signature = false := by
  intro s fs data c foreign stored
  have pos : 0 < s.config.segmentWidth := by decide
  have directory : fs.DirectoryAt (Path.ofText "/s") [Bytes.ofText "s"] := ⟨by rfl, by rfl⟩
  have empty : fs.below [Bytes.ofText "s"] = [] := by rfl
  have takes : s.Takes c.signature := takes_of_hash rfl
  have fits : s.Fits := fits_of_length pos (by decide)
  have start : s.Holds _ fs ∅ := holds_empty directory empty
  have holds : s.Holds [Bytes.ofText "s"] stored (Finmap.insert c.signature data ∅) := by
    obtain ⟨-, holds, -⟩ := start.put pos fits takes data
    rwa [Payloads.put_new rfl Finmap.notMem_empty] at holds
  have read : stored.contentAt (s.path foreign) = .ok data := by
    have := holds.contentAt_path pos fits takes
    rwa [Finmap.lookup_insert] at this
  -- the two signatures have one path, and nothing else is asked of what is deleted
  have same : s.delete stored foreign = s.delete stored c.signature := rfl
  obtain ⟨deleted, left⟩ := holds.delete pos fits takes
  refine ⟨openAt_directory directory pos, empty, Signature.sized_of .sha256 data, rfl, ?_, by decide +kernel, ?_, ?_,
    ?_⟩
  · simp [get, read, s]
  · rw [same, deleted]
    simp [Finmap.mem_insert]
  · rw [holds.contains_eq pos fits takes]
    simp [Finmap.mem_insert]
  · rw [same, left.contains_eq pos fits takes]
    simp

end ContentChunks.Store
