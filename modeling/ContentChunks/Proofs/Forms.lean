/-
What a form writes is read back. A value is kept if it has a text and is read
from it again; which values are kept is shown form by form, each from what it
is written with.

Main statements:
- `Text.value?_of`: every text is what it is written as.
- `record?_ofMembers`: the fields of a record are read from the object of its members.
- `Form.Kept.read?_write`: what is kept is read from its text.
- `Location.kept`, `Signature.kept`: every location and every signature is kept, checked or not.
-/
import ContentChunks.Form.Chunk
import ContentChunks.Proofs.JsonText
import ContentChunks.Proofs.Utf8

namespace ContentChunks

open String (utf8EncodeChar)

namespace Json

/-! ## Texts -/

theorem pointBytes_of_ascii {c : Char} (ascii : c.toNat < 0x80) : pointBytes c.toNat = utf8EncodeChar c := by
  have short : c.val.toNat ≤ 127 := Nat.le_of_lt_succ ascii
  rw [pointBytes, if_pos ascii, utf8EncodeChar]
  simp only [short, ↓reduceIte]
  rfl

/-- A unit that is not the first of a pair stands for itself. -/
theorem Text.bytes_escaped {unit : Nat} (single : leading unit = false) (rest : Text) :
    Text.bytes (.escaped unit :: rest) = pointBytes unit ++ Text.bytes rest := by
  rcases rest with _ | ⟨mark, rest⟩
  · simp [Text.bytes]
  · cases mark <;> simp [Text.bytes, single]

theorem Text.bytes_of_cons (c : Char) (rest : Text) :
    Text.bytes (Mark.of c :: rest) = utf8EncodeChar c ++ Text.bytes rest := by
  unfold Mark.of
  split
  next special =>
    have ascii : c.toNat < 0x80 := by
      rcases special with rfl | rfl | control
      · decide
      · decide
      · omega
    have single : leading c.toNat = false := by
      simp only [leading, Bool.and_eq_false_iff, decide_eq_false_iff_not]
      omega
    rw [Text.bytes_escaped single, pointBytes_of_ascii ascii]
  next => rw [Text.bytes]

theorem Text.bytes_of (s : String) : (Text.of s).bytes = Bytes.ofText s := by
  rw [Text.of, Bytes.ofText]
  induction s.toList with
  | nil => rfl
  | cons c cs ih => rw [List.map_cons, Text.bytes_of_cons, ih, List.flatMap_cons]

theorem Text.plain_of (s : String) : (Text.of s).plain = true := by
  simp only [Text.plain, Text.of, List.all_map, List.all_eq_true]
  intro c _
  by_cases special : c = '"' ∨ c = '\\' ∨ c.toNat < 0x20
  · simp [Mark.of, special]
  · have bare : 0x20 ≤ c.toNat := by simp only [not_or, Nat.not_lt] at special; exact special.2.2
    simp [Mark.of, special, bare]

/-- **Every text is what it is written as.** -/
theorem Text.value?_of (s : String) : (Text.of s).value? = some s := by
  rw [Text.value?, Text.plain_of, if_pos rfl, Text.bytes_of, Utf8.text?_ofText]

theorem Text.legible_of (s : String) : (Text.of s).Legible := by
  intro mark mem
  obtain ⟨c, -, rfl⟩ := List.mem_map.1 mem
  unfold Mark.of
  split
  next special =>
    show c.toNat < 0x10000
    rcases special with rfl | rfl | control
    · decide
    · decide
    · omega
  next plain =>
    obtain ⟨notQuote, notEscape, -⟩ := not_or.1 plain |>.imp_right not_or.1
    exact ⟨notQuote, notEscape⟩

theorem legible_ofText (s : String) : (ofText s).Legible := Text.legible_of s

theorem textValue?_ofText (s : String) : textValue? (ofText s) = some s := Text.value?_of s

/-! ## Lists -/

section

variable {α : Type} {read : Json → Option α} {write : α → Json} {items : List α}

theorem legible_ofList (legible : ∀ a ∈ items, (write a).Legible) : (ofList write items).Legible := by
  refine legibleItems_iff.2 fun item mem => ?_
  obtain ⟨a, ha, rfl⟩ := List.mem_map.1 mem
  exact legible a ha

theorem listOf?_ofList (back : ∀ a ∈ items, read (write a) = some a) :
    listOf? read (ofList write items) = some items :=
  Utf8.mapM_map_of_back back

end

theorem legible_ofBytes (bytes : Bytes) : (ofBytes bytes).Legible := legible_ofList fun _ _ => trivial

theorem bytes?_ofBytes (bytes : Bytes) : bytes? (ofBytes bytes) = some bytes := by
  have byte (b : UInt8) : (natBelow? 256 (.number b.toNat)).map UInt8.ofNat = some b := by
    simp [natBelow?, b.toNat_lt]
  exact listOf?_ofList fun b _ => byte b

/-! ## Records -/

theorem legible_ofMembers {members : List (String × Json)} (legible : ∀ m ∈ members, m.2.Legible) :
    (ofMembers members).Legible := by
  refine legibleMembers_iff.2 fun m mem => ?_
  obtain ⟨⟨key, value⟩, hm, rfl⟩ := List.mem_map.1 mem
  exact ⟨Text.legible_of key, legible _ hm⟩

theorem keyed?_ofMembers (members : List (String × Json)) :
    keyed? (members.map fun (key, value) => (Text.of key, value)) = some members :=
  Utf8.mapM_map_of_back fun m _ => by simp [Text.value?_of]

theorem lookup_of_mem {members : List (String × Json)} (distinct : (members.map Prod.fst).Nodup) {m : String × Json}
    (mem : m ∈ members) : members.lookup m.1 = some m.2 := by
  induction members with
  | nil => cases mem
  | cons first members ih =>
    obtain ⟨fresh, distinct⟩ := List.nodup_cons.1 distinct
    rw [List.lookup_cons]
    rcases List.mem_cons.1 mem with rfl | mem
    · simp
    · have other : (m.1 == first.1) = false :=
        beq_eq_false_iff_ne.2 fun same => fresh (same ▸ List.mem_map_of_mem mem)
      rw [other]
      exact ih distinct mem

theorem length_filter_key {members : List (String × Json)} (distinct : (members.map Prod.fst).Nodup) (f : String) :
    (members.filter fun m => m.1 == f).length ≤ 1 := by
  have count := List.nodup_iff_count.1 distinct f
  rwa [List.count, List.countP_map, List.countP_eq_length_filter] at count

/-- **The fields of a record are read from the object of its members**, if no two have one name. -/
theorem record?_ofMembers (members : List (String × Json)) (distinct : (members.map Prod.fst).Nodup) :
    record? (members.map Prod.fst) (ofMembers members) = some (members.map fun m => some m.2) := by
  have once : ((members.map Prod.fst).all fun f => (members.filter fun m => m.1 == f).length ≤ 1) = true := by
    simpa using fun f _ _ => length_filter_key distinct f
  have known : (members.all fun m => (members.map Prod.fst).contains m.1 || m.2.plain) = true := by
    rw [List.all_eq_true]
    intro m mem
    rw [List.contains_iff_mem.2 (List.mem_map_of_mem mem), Bool.true_or]
  have values : (members.map Prod.fst).map (fun f => members.lookup f) = members.map fun m => some m.2 := by
    rw [List.map_map]
    exact List.map_congr_left fun m mem => lookup_of_mem distinct mem
  unfold ofMembers record?
  dsimp only
  rw [keyed?_ofMembers]
  dsimp only [Option.bind_eq_bind, Option.bind_some]
  rw [once, known, values]
  rfl

end Json

/-! ## Forms -/

open Json Form

/-- Whether a value has a text and is read back from what is written. -/
structure Form.Kept {α : Type} [Form α] (a : α) : Prop where
  legible : (toJson a).Legible
  back : ofJson? (toJson a) = some a

/-- **What is kept is read from its text.** -/
theorem Form.Kept.read?_write {α : Type} [Form α] {a : α} (kept : Kept a) : read? (write a) = some a := by
  rw [read?, write, parse?_render kept.legible, Option.bind_some, kept.back]

theorem Algorithm.kept (a : Algorithm) : Kept a where
  legible := legible_ofText a.name
  back := by
    have name : variant? (toJson a) = some (a.name, none) := by simp [toJson, ofText, variant?, Text.value?_of]
    simp only [ofJson?, name, Algorithm.named?_name]

/-- **Every location is kept**, also one that is empty or has a segment that is no name. -/
theorem Location.kept (l : Location) : Kept l where
  legible := legible_ofMembers (by simpa using legible_ofList fun s _ => legible_ofText s)
  back := by
    have fields := record?_ofMembers [("segments", ofList ofText l.segments)] (by simp)
    simp only [List.map_cons, List.map_nil] at fields
    have segments : listOf? textValue? (ofList ofText l.segments) = some l.segments :=
      listOf?_ofList fun s _ => textValue?_ofText s
    simp [ofJson?, toJson, fields, segments]

/-- **Every signature is kept**, also one whose digest has a length of its own. -/
theorem Signature.kept (s : Signature) : Kept s where
  legible := legible_ofMembers (by simpa using ⟨s.algorithm.kept.legible, legible_ofBytes s.digest⟩)
  back := by
    have fields := record?_ofMembers [("algorithm", toJson s.algorithm), ("digest", ofBytes s.digest)] (by simp)
    simp only [List.map_cons, List.map_nil] at fields
    have algorithm : field? (some (toJson s.algorithm)) = some s.algorithm := s.algorithm.kept.back
    have digest := bytes?_ofBytes s.digest
    simp only [ofJson?, toJson, field?] at fields algorithm ⊢
    simp [fields, algorithm, digest]

end ContentChunks
