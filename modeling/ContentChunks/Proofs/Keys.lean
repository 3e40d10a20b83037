/-
The keys of objects: which names they have, and that a key is read back as the
signature that it was written for.

Main statements:
- `exists_stem`: the names of a key are words of one width, but for the last.
- `usable_of_mem_place`: each of them is a name that an entry may have.
- `signature_place`: the signature of a key is read back.
- `digest_eq_of_place`: a key is that of one digest.
- `digest_eq_of_prefix`: the place of an object is on the way to no other place.
-/
import ContentChunks.Key
import ContentChunks.Hasher
import ContentChunks.Proofs.Base32
import ContentChunks.Proofs.Utf8
import ContentChunks.Proofs.Walking

namespace ContentChunks

theorem Utf8.isSome_text? {bytes : Bytes} (ascii : ∀ b ∈ bytes, b < 0x80) : (Utf8.text? bytes).isSome = true := by
  have spelled : Bytes.ofText (String.ofList (bytes.map fun b => Char.ofNat b.toNat)) = bytes := by
    rw [Bytes.ofText, String.toList_ofList]
    induction bytes with
    | nil => rfl
    | cons b bytes ih =>
      obtain ⟨small, asciiRest⟩ := List.forall_mem_cons.1 ascii
      have small : b.toNat ≤ 0x7F := Nat.le_of_lt_succ small
      rw [List.map_cons, List.flatMap_cons, encode_one (.inl (by omega)) small rfl, ih asciiRest, List.singleton_append]
  rw [← spelled, text?_ofText]
  rfl

namespace Key

/-- Whether bytes are symbols. -/
def IsWord (bytes : Bytes) : Prop := ∀ b ∈ bytes, ∃ n < 32, b = Base32.symbol n

/-- The names of the directories above a signature's object. -/
def folders (signature : Signature) (width : Nat) : List Bytes := (names signature width).dropLast

/-- The name of a signature's object. -/
def object (signature : Signature) (width : Nat) : Bytes := (names signature width).getLast?.getD [] ++ ending

/-- Where the object of a signature is, from the root of a store. -/
def place (signature : Signature) (width : Nat) : Place := folders signature width ++ [object signature width]

variable {signature : Signature} {width : Nat}

/-- The names of a key are words of one width, but for the last, which may be shorter. -/
theorem exists_stem (pos : 0 < width) (given : signature.digest ≠ []) :
    ∃ stem, names signature width = folders signature width ++ [stem] ∧ object signature width = stem ++ ending ∧
      (∀ folder ∈ folders signature width, folder.length = width) ∧ stem ≠ [] ∧ stem.length ≤ width := by
  obtain ⟨full, last, same, length, filled, short⟩ := Base32.rows_spec pos (Base32.encode_ne_nil given)
  have hnames : names signature width = full ++ [last] := same
  have hfolders : folders signature width = full := by simp [folders, hnames]
  have hobject : object signature width = last ++ ending := by simp [object, hnames]
  rw [hfolders]
  exact ⟨last, hnames, hobject, length, filled, short⟩

theorem path_eq (pos : 0 < width) (given : signature.digest ≠ []) (root : Path) :
    path root signature width = root.extend (place signature width) := by
  obtain ⟨stem, hnames, hobject, -, -, -⟩ := exists_stem pos given
  unfold path place
  rw [hnames, List.reverse_append, hobject]
  simp

theorem flatten_names (signature : Signature) (width : Nat) :
    (names signature width).flatten = Base32.encode signature.digest :=
  Base32.flatten_rows _ _

theorem mem_names {name : Bytes} (h : name ∈ names signature width) :
    IsWord name ∧ name.length ≤ (8 * signature.digest.length + 4) / 5 := by
  constructor
  · intro b hb
    have : b ∈ (names signature width).flatten := List.mem_flatten.2 ⟨name, h, hb⟩
    rw [flatten_names] at this
    exact Base32.exists_of_mem_encode this
  · have := (List.sublist_flatten_of_mem h).length_le
    rwa [flatten_names, Base32.length_encode] at this

theorem symbol_spec {n : Nat} (h : n < 32) :
    Base32.symbol n ≠ slash ∧ Base32.symbol n ≠ dot ∧ Base32.symbol n ≠ 0 ∧ Base32.symbol n < 0x80 := by
  have all : ∀ n : Fin 32, Base32.symbol n ≠ slash ∧ Base32.symbol n ≠ dot ∧ Base32.symbol n ≠ 0 ∧
      Base32.symbol n < 0x80 := by decide
  exact all ⟨n, h⟩

theorem IsWord.not_mem {word : Bytes} (h : IsWord word) : slash ∉ word ∧ dot ∉ word ∧ 0 ∉ word := by
  refine ⟨?_, ?_, ?_⟩
  · intro hb
    obtain ⟨n, hn, same⟩ := h _ hb
    exact (symbol_spec hn).1 same.symm
  · intro hb
    obtain ⟨n, hn, same⟩ := h _ hb
    exact (symbol_spec hn).2.1 same.symm
  · intro hb
    obtain ⟨n, hn, same⟩ := h _ hb
    exact (symbol_spec hn).2.2.1 same.symm

theorem ascii_of_isWord {word : Bytes} (h : IsWord word) : ∀ b ∈ word, b < 0x80 := by
  intro b hb
  obtain ⟨n, hn, rfl⟩ := h b hb
  exact (symbol_spec hn).2.2.2

theorem length_digest_le (sized : signature.Sized) : signature.digest.length ≤ 64 := by
  rw [sized]
  cases signature.algorithm <;> decide

theorem digest_ne_nil (sized : signature.Sized) : signature.digest ≠ [] := by
  intro h
  have length := sized
  rw [Signature.Sized, h] at length
  revert length
  cases signature.algorithm <;> decide

theorem isWord_folder {folder : Bytes} (h : folder ∈ folders signature width) : IsWord folder :=
  (mem_names (List.dropLast_subset _ h)).1

theorem dot_mem_object (signature : Signature) (width : Nat) : dot ∈ object signature width :=
  List.mem_append_right _ (by decide)

theorem folder_ne_object {other : Signature} {folder : Bytes} (h : folder ∈ folders signature width) :
    folder ≠ object other width := by
  intro same
  have := dot_mem_object other width
  rw [← same] at this
  exact (isWord_folder h).not_mem.2.1 this

theorem mapM_name {names : List Bytes} (text : ∀ n ∈ names, (Utf8.text? n).isSome = true) :
    (names.map Path.Component.name).mapM name = .ok names := by
  have each : ∀ n ∈ names, name (.name n) = .ok (id n) := fun n hn => by rw [name, if_pos (text n hn), id]
  rw [List.mapM_map]
  exact (mapM_eq_ok_map each).trans (congrArg Except.ok (List.map_id names))

section Given

variable (pos : 0 < width) (given : signature.digest ≠ [])
include pos given

theorem object_spec :
    ∃ stem, stem ∈ names signature width ∧ stem ≠ [] ∧ object signature width = stem ++ ending := by
  obtain ⟨stem, hnames, hobject, -, filled, -⟩ := exists_stem pos given
  exact ⟨stem, by simp [hnames], filled, hobject⟩

/-- No name of a key starts with a dot, as those of temporary files do. -/
theorem head?_ne_dot {name : Bytes} (h : name ∈ place signature width) : name.head? ≠ some dot := by
  intro head
  rcases List.mem_append.1 h with h | h
  · exact (isWord_folder h).not_mem.2.1 (List.mem_of_head? head)
  · obtain rfl := List.mem_singleton.1 h
    obtain ⟨stem, hstem, filled, hobject⟩ := object_spec pos given
    obtain ⟨b, rest, rfl⟩ := List.exists_cons_of_ne_nil filled
    rw [hobject, List.cons_append, List.head?_cons] at head
    obtain rfl := Option.some.inj head
    exact (mem_names hstem).1.not_mem.2.1 (List.mem_cons_self)

theorem isName_of_mem_place {name : Bytes} (h : name ∈ place signature width) : Path.IsName name := by
  have noDot := head?_ne_dot pos given h
  have notDots : name ≠ [dot] ∧ name ≠ [dot, dot] :=
    ⟨fun same => noDot (by rw [same]; rfl), fun same => noDot (by rw [same]; rfl)⟩
  rcases List.mem_append.1 h with h | h
  · obtain ⟨stem, -, -, length, -, -⟩ := exists_stem pos given
    refine ⟨fun empty => ?_, (isWord_folder h).not_mem.1, notDots.1, notDots.2⟩
    have := length name h
    rw [empty, List.length_nil] at this
    omega
  · obtain rfl := List.mem_singleton.1 h
    obtain ⟨stem, hstem, filled, hobject⟩ := object_spec pos given
    refine ⟨by simp [hobject, filled], ?_, notDots.1, notDots.2⟩
    rw [hobject, List.mem_append, not_or]
    exact ⟨(mem_names hstem).1.not_mem.1, by decide⟩

/-- Keys of a small width have names that an entry may have, whatever the digest. -/
theorem usable_of_narrow (narrow : width + ending.length ≤ FileSystem.nameLimit) {name : Bytes}
    (h : name ∈ place signature width) : FileSystem.Usable name := by
  obtain ⟨stem, hnames, hobject, length, -, short⟩ := exists_stem pos given
  refine ⟨isName_of_mem_place pos given h, ?_, ?_⟩ <;> rcases List.mem_append.1 h with h | h
  · exact (isWord_folder h).not_mem.2.2
  · obtain rfl := List.mem_singleton.1 h
    have isName : stem ∈ names signature width := by simp [hnames]
    have word := (mem_names isName).1
    rw [hobject, List.mem_append, not_or]
    exact ⟨word.not_mem.2.2, by decide⟩
  · have := length name h
    omega
  · obtain rfl := List.mem_singleton.1 h
    rw [hobject, List.length_append]
    omega

theorem symbols_place : symbols width (place signature width) = .ok (Base32.encode signature.digest) := by
  obtain ⟨stem, hnames, hobject, length, filled, short⟩ := exists_stem pos given
  have suffix : ending.isSuffixOf (stem ++ ending) = true := List.isSuffixOf_iff_suffix.2 (List.suffix_append _ _)
  have front : (stem ++ ending).take ((stem ++ ending).length - ending.length) = stem := by simp
  have widths : ((folders signature width).reverse.any fun d => d.length != width) = false := by
    simpa using length
  have within : ¬(stem = [] ∨ width < stem.length) := by
    rw [not_or]
    exact ⟨filled, by omega⟩
  have all := flatten_names signature width
  rw [hnames, List.flatten_append, List.flatten_singleton] at all
  unfold symbols
  rw [place, hobject, List.reverse_append]
  simp only [List.reverse_singleton, List.singleton_append, suffix, front, widths, within, Bool.not_true,
    Bool.false_eq_true, if_false, List.reverse_reverse, all]

/-- Different digests have different keys, be they of one algorithm or of two. -/
theorem digest_eq_of_place {other : Signature} (otherGiven : other.digest ≠ [])
    (same : place other width = place signature width) : other.digest = signature.digest := by
  have here := symbols_place pos given
  rw [← same, symbols_place pos otherGiven] at here
  have read := congrArg Base32.decode (Except.ok.inj here)
  rw [Base32.decode_encode, Base32.decode_encode] at read
  exact Except.ok.inj read

/-- **The place of an object is on the way to that of no other digest.** -/
theorem digest_eq_of_prefix {other : Signature} (otherGiven : other.digest ≠ [])
    (within : place signature width <+: place other width) : signature.digest = other.digest := by
  obtain same | before := List.prefix_concat_iff.1 within
  · exact digest_eq_of_place pos otherGiven given same
  · -- the name of an object is that of no directory
    have folder : object signature width ∈ folders other width := before.subset (by simp [place])
    exact absurd rfl (folder_ne_object folder)

end Given

/-- Where a key of a digest of its algorithm's length has directories, their width is small. -/
theorem narrow_of_folder (pos : 0 < width) (sized : signature.Sized) {folder : Bytes}
    (h : folder ∈ folders signature width) : width + ending.length ≤ FileSystem.nameLimit := by
  obtain ⟨stem, -, -, length, -, -⟩ := exists_stem pos (digest_ne_nil sized)
  have short := (mem_names (List.dropLast_subset _ h)).2
  have := length_digest_le sized
  have tail : ending.length = 6 := rfl
  rw [length folder h] at short
  rw [FileSystem.nameLimit]
  omega

variable (pos : 0 < width) (sized : signature.Sized)
include pos sized

theorem usable_folder {folder : Bytes} (h : folder ∈ folders signature width) : FileSystem.Usable folder := by
  obtain ⟨word, short⟩ := mem_names (List.dropLast_subset _ h)
  have := length_digest_le sized
  refine ⟨isName_of_mem_place pos (digest_ne_nil sized) (List.mem_append_left _ h), word.not_mem.2.2, ?_⟩
  rw [FileSystem.nameLimit]
  omega

theorem usable_object : FileSystem.Usable (object signature width) := by
  obtain ⟨stem, hstem, -, hobject⟩ := object_spec pos (digest_ne_nil sized)
  obtain ⟨word, short⟩ := mem_names hstem
  have := length_digest_le sized
  have size : (object signature width).length = stem.length + 6 := by
    rw [hobject, List.length_append]
    rfl
  refine ⟨isName_of_mem_place pos (digest_ne_nil sized) (by simp [place]), ?_, ?_⟩
  · rw [hobject, List.mem_append, not_or]
    exact ⟨word.not_mem.2.2, by decide⟩
  · rw [FileSystem.nameLimit]
    omega

theorem usable_of_mem_place {name : Bytes} (h : name ∈ place signature width) : FileSystem.Usable name := by
  rcases List.mem_append.1 h with h | h
  · exact usable_folder pos sized h
  · obtain rfl := List.mem_singleton.1 h
    exact usable_object pos sized

theorem weight_place_le : Path.weight (place signature width) ≤ 212 := by
  obtain ⟨stem, hnames, hobject, length, filled, -⟩ := exists_stem pos (digest_ne_nil sized)
  have all : ∀ name ∈ names signature width, name ≠ [] := by
    intro name hname empty
    rw [hnames] at hname
    rcases List.mem_append.1 hname with hname | hname
    · have := length name hname
      rw [empty, List.length_nil] at this
      omega
    · exact filled ((List.mem_singleton.1 hname).symm.trans empty)
  have written := Path.weight_le all
  have digest := length_digest_le sized
  have tail : ending.length = 6 := rfl
  rw [flatten_names, Base32.length_encode, hnames, Path.weight_append, Path.weight_cons] at written
  rw [place, hobject, Path.weight_append, Path.weight_cons, List.length_append]
  omega

theorem ascii_of_mem_place {name : Bytes} (h : name ∈ place signature width) : ∀ b ∈ name, b < 0x80 := by
  rcases List.mem_append.1 h with h | h
  · exact ascii_of_isWord (isWord_folder h)
  · obtain rfl := List.mem_singleton.1 h
    obtain ⟨stem, hstem, -, hobject⟩ := object_spec pos (digest_ne_nil sized)
    have tail : ending.all (· < 0x80) = true := by decide
    intro b hb
    rw [hobject] at hb
    rcases List.mem_append.1 hb with hb | hb
    · exact ascii_of_isWord (mem_names hstem).1 b hb
    · simpa using List.all_eq_true.1 tail b hb

/-- **The signature of a key is read back.** -/
theorem signature_place :
    Key.signature ⟨Path.join (place signature width)⟩ signature.algorithm width = .ok signature := by
  have components := Path.components_join fun n hn => (usable_of_mem_place pos sized hn).toIsName
  have read : digest width ⟨Path.join (place signature width)⟩ = .ok signature.digest := by
    unfold digest
    rw [components, mapM_name fun n hn => Utf8.isSome_text? (ascii_of_mem_place pos sized hn)]
    simp only [bind, Except.bind, symbols_place pos (digest_ne_nil sized), Base32.decode_encode]
    rfl
  rw [Key.signature, read]
  exact Signature.ofDigest_eq_ok_iff.2 ⟨rfl, sized⟩

/-- Different signatures of one algorithm have different keys. -/
theorem eq_of_place {other : Signature} (otherSized : other.Sized)
    (algorithm : other.algorithm = signature.algorithm)
    (same : place other width = place signature width) : other = signature :=
  congrArg₂ Signature.mk algorithm (digest_eq_of_place pos (digest_ne_nil sized) (digest_ne_nil otherSized) same)

end Key

end ContentChunks
