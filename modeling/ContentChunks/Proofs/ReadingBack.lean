/-
Values of all forms are read back from their texts, whatever is nested in them,
as long as their numbers are not too great for the form: an offset, line or
column has 64 bits and a score 32. So different values have different texts.

Main statements:
- `Form.keptRecord`, `Form.keptVariant`: how a record and a variant are kept.
- `optional?_ofOption`, `Form.keptList`: how what is optional and what is many are kept.
- `Form.faithful`: the values of every form are read back from their texts.
-/
import ContentChunks.Form.Delta
import ContentChunks.Proofs.Forms

namespace ContentChunks

open Json Form

/-! ## Records, variants, lists and options -/

namespace Json

theorem natBelow?_number {limit n : Nat} (small : n < limit) : natBelow? limit (.number n) = some n := by
  rw [natBelow?, if_pos small]

theorem variant?_ofVariant (name : String) (value : Json) : variant? (ofVariant name value) = some (name, some value) := by
  simp [ofVariant, ofMembers, variant?, Text.value?_of]

theorem legible_ofVariant (name : String) {value : Json} (legible : value.Legible) : (ofVariant name value).Legible :=
  legible_ofMembers (by simpa using legible)

variable {α : Type} {read : Json → Option α} {write : α → Json}

/-- What is optional is read back, if nothing that is there is written as null. -/
theorem optional?_ofOption {o : Option α} (solid : ∀ a ∈ o, write a ≠ .null) (back : ∀ a ∈ o, read (write a) = some a) :
    optional? read (some (ofOption write o)) = some o := by
  cases o with
  | none => rfl
  | some a =>
    rw [ofOption, optional?]
    · rw [back a rfl, Option.map_some]
    · exact solid a rfl

theorem legible_ofOption {o : Option α} (legible : ∀ a ∈ o, (write a).Legible) : (ofOption write o).Legible := by
  cases o with
  | none => trivial
  | some a => exact legible a rfl

end Json

namespace Form

variable {α : Type} [Form α] {a : α}

theorem Kept.field? (kept : Kept a) : Form.field? (some (toJson a)) = some a := kept.back

theorem keptList {items : List α} (kept : ∀ a ∈ items, Kept a) : Kept items where
  legible := legible_ofList fun a mem => (kept a mem).legible
  back := listOf?_ofList fun a mem => (kept a mem).back

/-- A record is kept, if it is read back from its fields. -/
theorem keptRecord (members : List (String × Json)) (distinct : (members.map Prod.fst).Nodup)
    (written : toJson a = ofMembers members) (legible : ∀ m ∈ members, m.2.Legible)
    (back : record? (members.map Prod.fst) (toJson a) = some (members.map fun m => some m.2) →
      ofJson? (toJson a) = some a) : Kept a where
  legible := written ▸ legible_ofMembers legible
  back := back (written ▸ record?_ofMembers members distinct)

/-- So is a variant that holds one. -/
theorem keptVariant (name : String) (members : List (String × Json)) (distinct : (members.map Prod.fst).Nodup)
    (written : toJson a = ofVariant name (ofMembers members)) (legible : ∀ m ∈ members, m.2.Legible)
    (back : variant? (toJson a) = some (name, some (ofMembers members)) →
      record? (members.map Prod.fst) (ofMembers members) = some (members.map fun m => some m.2) →
      ofJson? (toJson a) = some a) : Kept a where
  legible := written ▸ legible_ofVariant name (legible_ofMembers legible)
  back := back (written ▸ variant?_ofVariant name _) (record?_ofMembers members distinct)

end Form

/-! ## Chunks -/

/-- Whether an offset has 64 bits. -/
def BytePosition.Bounded (p : BytePosition) : Prop := p.offset < offsetLimit

theorem BytePosition.kept {p : BytePosition} (bounded : p.Bounded) : Kept p := by
  refine keptRecord [("offset", .number p.offset)] (by simp) rfl (by simp [Legible]) fun fields => ?_
  simp only [List.map_cons, List.map_nil] at fields
  simp [ofJson?, fields, natBelow?_number bounded]

/-- Whether offset, line and column have 64 bits. -/
structure TextPosition.Bounded (p : TextPosition) : Prop where
  offset : p.offset < offsetLimit
  line : ∀ n ∈ p.line, n < offsetLimit
  column : ∀ n ∈ p.column, n < offsetLimit

theorem TextPosition.kept {p : TextPosition} (bounded : p.Bounded) : Kept p := by
  have back {o : Option Nat} (within : ∀ n ∈ o, n < offsetLimit) :
      optional? (natBelow? offsetLimit) (some (ofOption .number o)) = some o :=
    optional?_ofOption (by simp) fun n mem => natBelow?_number (within n mem)
  have legible (o : Option Nat) : (ofOption .number o).Legible := legible_ofOption fun _ _ => trivial
  refine keptRecord [("offset", .number p.offset), ("line", ofOption .number p.line),
    ("column", ofOption .number p.column)] (by simp) rfl (by simp [Legible, legible]) fun fields => ?_
  simp only [List.map_cons, List.map_nil] at fields
  simp [ofJson?, fields, natBelow?_number bounded.offset, back bounded.line, back bounded.column]

/-- Whether both ends are bounded. -/
def Range.Bounded : Range → Prop
  | .bytes start stop => start < offsetLimit ∧ stop < offsetLimit
  | .text start stop => start.Bounded ∧ stop.Bounded

theorem Range.kept {r : Range} (bounded : r.Bounded) : Kept r := by
  cases r with
  | bytes start stop =>
    have first : Kept (BytePosition.mk start) := BytePosition.kept bounded.1
    have last : Kept (BytePosition.mk stop) := BytePosition.kept bounded.2
    refine keptVariant "Bytes" [("start", toJson (BytePosition.mk start)), ("end", toJson (BytePosition.mk stop))]
      (by simp) rfl (by simpa using ⟨first.legible, last.legible⟩) fun variant fields => ?_
    simp only [List.map_cons, List.map_nil] at fields
    simp [ofJson?, variant, fields, first.field?, last.field?]
  | text start stop =>
    have first := TextPosition.kept bounded.1
    have last := TextPosition.kept bounded.2
    refine keptVariant "Text" [("start", toJson start), ("end", toJson stop)] (by simp) rfl
      (by simpa using ⟨first.legible, last.legible⟩) fun variant fields => ?_
    simp only [List.map_cons, List.map_nil] at fields
    simp [ofJson?, variant, fields, first.field?, last.field?]

/-- Whether the ends of the range are bounded. -/
def Chunk.Bounded (c : Chunk) : Prop := c.range.Bounded

theorem Chunk.kept {c : Chunk} (bounded : c.Bounded) : Kept c := by
  have range := Range.kept bounded
  refine keptRecord [("location", toJson c.location), ("range", toJson c.range), ("signature", toJson c.signature)]
    (by simp) rfl (by simpa using ⟨c.location.kept.legible, range.legible, c.signature.kept.legible⟩) fun fields => ?_
  simp only [List.map_cons, List.map_nil] at fields
  simp [ofJson?, fields, c.location.kept.field?, range.field?, c.signature.kept.field?]

theorem Chunk.toJson_ne_null (c : Chunk) : toJson c ≠ .null := by
  intro null
  cases null

/-- Whether the neighbours are bounded. -/
structure Chunk.Context.Bounded (c : Chunk.Context) : Prop where
  previous : ∀ x ∈ c.previous, x.Bounded
  next : ∀ x ∈ c.next, x.Bounded

theorem Chunk.Context.kept {c : Chunk.Context} (bounded : c.Bounded) : Kept c := by
  have previous := fun x mem => Chunk.kept (bounded.previous x mem)
  have next := fun x mem => Chunk.kept (bounded.next x mem)
  have before := optional?_ofOption (fun x _ => x.toJson_ne_null) fun x mem => (previous x mem).back
  have after := optional?_ofOption (fun x _ => x.toJson_ne_null) fun x mem => (next x mem).back
  have written : toJson c = ofMembers [("previous", ofOption toJson c.previous), ("next", ofOption toJson c.next)] := rfl
  refine keptRecord _ (by simp) written (by simpa using ⟨legible_ofOption fun x mem => (previous x mem).legible,
    legible_ofOption fun x mem => (next x mem).legible⟩) fun fields => ?_
  simp only [written, List.map_cons, List.map_nil] at fields
  -- the chunks are read as what is optional, so only the outer reading is opened
  rw [ofJson?, instFormContext]
  simp [fields, before, after]

/-! ## Deltas and change records -/

/-- Whether all chunks of a list are bounded. -/
def Chunk.AllBounded (chunks : List Chunk) : Prop := ∀ c ∈ chunks, c.Bounded

theorem keptChunks {chunks : List Chunk} (bounded : Chunk.AllBounded chunks) : Kept chunks :=
  keptList fun c mem => Chunk.kept (bounded c mem)

/-- Whether the chunks are bounded. -/
structure Common.Bounded (c : Common) : Prop where
  old : Chunk.AllBounded c.old
  new : Chunk.AllBounded c.new

theorem Common.kept {c : Common} (bounded : c.Bounded) : Kept c := by
  have old := keptChunks bounded.old
  have new := keptChunks bounded.new
  refine keptRecord [("signature", toJson c.signature), ("old", toJson c.old), ("new", toJson c.new)] (by simp) rfl
    (by simpa using ⟨c.signature.kept.legible, old.legible, new.legible⟩) fun fields => ?_
  simp only [List.map_cons, List.map_nil] at fields
  simp [ofJson?, fields, c.signature.kept.field?, old.field?, new.field?]

/-- Whether the chunks are bounded, and the score has 32 bits. -/
structure Changed.Bounded (c : Changed) : Prop where
  origin : c.origin.Bounded
  chunk : c.chunk.Bounded
  score : c.score < scoreBound

theorem Changed.kept {c : Changed} (bounded : c.Bounded) : Kept c := by
  have origin := Chunk.kept bounded.origin
  have chunk := Chunk.kept bounded.chunk
  refine keptRecord [("origin", toJson c.origin), ("chunk", toJson c.chunk), ("score", .number c.score)] (by simp) rfl
    (by simpa [Legible] using ⟨origin.legible, chunk.legible⟩) fun fields => ?_
  simp only [List.map_cons, List.map_nil] at fields
  simp [ofJson?, fields, origin.field?, chunk.field?, natBelow?_number bounded.score]

/-- Whether everything in it is bounded. -/
structure Delta.Bounded (d : Delta) : Prop where
  common : ∀ c ∈ d.common, c.Bounded
  changed : ∀ c ∈ d.changed, c.Bounded
  removed : Chunk.AllBounded d.removed
  added : Chunk.AllBounded d.added

theorem Delta.kept {d : Delta} (bounded : d.Bounded) : Kept d := by
  have common : Kept d.common := keptList fun c mem => Common.kept (bounded.common c mem)
  have changed : Kept d.changed := keptList fun c mem => Changed.kept (bounded.changed c mem)
  have removed := keptChunks bounded.removed
  have added := keptChunks bounded.added
  refine keptRecord [("common", toJson d.common), ("changed", toJson d.changed), ("removed", toJson d.removed),
    ("added", toJson d.added)] (by simp) rfl
    (by simpa using ⟨common.legible, changed.legible, removed.legible, added.legible⟩) fun fields => ?_
  simp only [List.map_cons, List.map_nil] at fields
  simp [ofJson?, fields, common.field?, changed.field?, removed.field?, added.field?]

/-- Whether the chunks and their neighbours are bounded. -/
def Change.Bounded : Change → Prop
  | .create _ chunk context => chunk.Bounded ∧ context.Bounded
  | .delete chunk context => chunk.Bounded ∧ context.Bounded
  | .update _ chunk origin context => chunk.Bounded ∧ origin.Bounded ∧ context.Bounded

theorem Change.kept {c : Change} (bounded : c.Bounded) : Kept c := by
  cases c with
  | create data chunk context =>
    have chunk' := Chunk.kept bounded.1
    have context' := Chunk.Context.kept bounded.2
    refine keptVariant "Create" [("data", ofBytes data), ("chunk", toJson chunk), ("context", toJson context)] (by simp)
      rfl (by simpa using ⟨legible_ofBytes data, chunk'.legible, context'.legible⟩) fun variant fields => ?_
    simp only [List.map_cons, List.map_nil] at fields
    simp [ofJson?, variant, fields, bytes?_ofBytes, chunk'.field?, context'.field?]
  | delete chunk context =>
    have chunk' := Chunk.kept bounded.1
    have context' := Chunk.Context.kept bounded.2
    refine keptVariant "Delete" [("chunk", toJson chunk), ("context", toJson context)] (by simp) rfl
      (by simpa using ⟨chunk'.legible, context'.legible⟩) fun variant fields => ?_
    simp only [List.map_cons, List.map_nil] at fields
    simp [ofJson?, variant, fields, chunk'.field?, context'.field?]
  | update data chunk origin context =>
    have chunk' := Chunk.kept bounded.1
    have origin' := Chunk.kept bounded.2.1
    have context' := Chunk.Context.kept bounded.2.2
    refine keptVariant "Update" [("data", ofBytes data), ("chunk", toJson chunk), ("origin", toJson origin),
      ("context", toJson context)] (by simp) rfl
      (by simpa using ⟨legible_ofBytes data, chunk'.legible, origin'.legible, context'.legible⟩) fun variant fields => ?_
    simp only [List.map_cons, List.map_nil] at fields
    simp [ofJson?, variant, fields, bytes?_ofBytes, chunk'.field?, origin'.field?, context'.field?]

/-! ## All forms -/

/-- Whether the values of a type, as far as they are bounded, are what is read from their
texts, and so no two have one text. -/
structure Form.Faithful {α : Type} [Form α] (Bounded : α → Prop) : Prop where
  back : ∀ a, Bounded a → read? (write a) = some a
  apart : ∀ a b, Bounded a → Bounded b → write a = write b → a = b

theorem Form.faithful_of_kept {α : Type} [Form α] {Bounded : α → Prop} (kept : ∀ a, Bounded a → Kept a) :
    Faithful Bounded := by
  have back a (bounded : Bounded a) : read? (write a) = some a := (kept a bounded).read?_write
  refine ⟨back, fun a b boundedA boundedB same => ?_⟩
  have read := back a boundedA
  rw [same, back b boundedB] at read
  exact (Option.some.inj read).symm

/-- **What is written is read back**, for each type that has a form: whatever is nested in a
value, and whether or not its parts can be made otherwise, the value is read from its text.
Only numbers have a bound; texts, digests and payloads have none. -/
theorem Form.faithful :
    Faithful (fun _ : Algorithm => True) ∧ Faithful BytePosition.Bounded ∧ Faithful TextPosition.Bounded ∧
    Faithful Range.Bounded ∧ Faithful (fun _ : Location => True) ∧ Faithful (fun _ : Signature => True) ∧
    Faithful Chunk.Bounded ∧ Faithful Chunk.Context.Bounded ∧ Faithful Common.Bounded ∧ Faithful Changed.Bounded ∧
    Faithful Delta.Bounded ∧ Faithful Change.Bounded :=
  ⟨faithful_of_kept fun a _ => a.kept, faithful_of_kept fun _ => BytePosition.kept,
    faithful_of_kept fun _ => TextPosition.kept, faithful_of_kept fun _ => Range.kept,
    faithful_of_kept fun l _ => l.kept, faithful_of_kept fun s _ => s.kept, faithful_of_kept fun _ => Chunk.kept,
    faithful_of_kept fun _ => Chunk.Context.kept, faithful_of_kept fun _ => Common.kept,
    faithful_of_kept fun _ => Changed.kept, faithful_of_kept fun _ => Delta.kept, faithful_of_kept fun _ => Change.kept⟩

end ContentChunks
