/-
What a delta and its change records say of two revisions. The chunks that a
delta removes or changes are those whose signature the new revision lacks, and
the ones it adds or changes to are those whose signature the old one lacks
(`Delta.lost_iff`, `Delta.gained_iff`), and the records tell of the same chunks
(`Delta.mem_changes`). Signatures are told apart, their repetitions are not.

Main statements:
- `Delta.changes_turn`: the records turn the signatures of the old revision into
  those of the new one, and carry the payloads of just the chunks that are new.
- `Delta.isUnchanged_iff_signatures`: a delta is unchanged just when the same
  signatures occur in both revisions, however often they do.
-/
import ContentChunks.Delta.Change
import ContentChunks.Proofs.Locality
import Mathlib.Data.Finset.Basic
import Mathlib.Logic.Basic

namespace ContentChunks

/-- The signatures that occur among some chunks. -/
def Chunk.signatures (chunks : List Chunk) : Finset Signature := (chunks.map (·.signature)).toFinset

theorem Chunk.mem_signatures {chunks : List Chunk} {s : Signature} :
    s ∈ Chunk.signatures chunks ↔ ∃ c ∈ chunks, c.signature = s := by
  simp [Chunk.signatures]

theorem Chunk.signatures_of_lacking {lacking chunks other : List Chunk}
    (h : ∀ c, c ∈ lacking ↔ c ∈ chunks ∧ ∀ o ∈ other, o.signature ≠ c.signature) :
    Chunk.signatures lacking = Chunk.signatures chunks \ Chunk.signatures other := by
  ext s
  simp only [Finset.mem_sdiff, Chunk.mem_signatures, h]
  constructor
  · intro ⟨c, ⟨listed, lacks⟩, same⟩
    subst same
    exact ⟨⟨c, listed, rfl⟩, fun ⟨o, mem, same⟩ => lacks o mem same⟩
  · intro ⟨⟨c, listed, same⟩, lacks⟩
    subst same
    exact ⟨c, ⟨listed, fun o mem same => lacks ⟨o, mem, same⟩⟩, rfl⟩

theorem Chunk.count_signature (chunks : List Chunk) (s : Signature) :
    (chunks.map (·.signature)).count s = (chunks.filter (·.signature == s)).length := by
  rw [List.count, List.countP_map, List.countP_eq_length_filter]
  rfl

namespace Change

/-- The chunk of the old revision that a step does away with. -/
def lost? : Change → Option Chunk
  | create .. => none
  | delete chunk _ => some chunk
  | update _ _ origin _ => some origin

/-- The chunk of the new revision that a step brings, with the data for it. -/
def gained? : Change → Option (Chunk × Bytes)
  | create data chunk _ => some (chunk, data)
  | delete .. => none
  | update data chunk _ _ => some (chunk, data)

def lost (changes : List Change) : List Chunk := changes.filterMap lost?

def gained (changes : List Change) : List (Chunk × Bytes) := changes.filterMap gained?

end Change

namespace Loading

variable {α β : Type} {f : α → Loading β} {items : List α}

theorem mem_result_mapM {results : List β} (done : (items.mapM f).result = .ok results) {y : β} :
    y ∈ results ↔ ∃ x ∈ items, (f x).result = .ok y := by
  have each := forall₂_of_mapM done
  clear done
  induction each with
  | nil => simp
  | cons loaded _ ih => simp [ih, loaded, eq_comm]

theorem exists_result_mapM :
    (∃ results, (items.mapM f).result = .ok results) ↔ ∀ x ∈ items, ∃ b, (f x).result = .ok b := by
  induction items with
  | nil => simp
  | cons x rest ih =>
    rw [List.forall_mem_cons, ← ih, List.mapM_cons]
    simp only [result_bind_eq_ok, result_pure]
    constructor
    · intro ⟨_, b, loaded, more, loadedMore, _⟩
      exact ⟨⟨b, loaded⟩, more, loadedMore⟩
    · intro ⟨⟨b, loaded⟩, more, loadedMore⟩
      exact ⟨_, b, loaded, more, loadedMore, rfl⟩

end Loading

namespace Delta

/-- The chunks of the old revision that are no longer in the new one. -/
def lost (d : Delta) : List Chunk := d.removed ++ d.changed.map (·.origin)

/-- The chunks of the new revision that were not in the old one. -/
def gained (d : Delta) : List Chunk := d.added ++ d.changed.map (·.chunk)

/-- One side of a delta: the leftovers that are free and the chunks of the others
are all chunks whose signature the other side lacks. -/
theorem mem_side_iff {chunks other paired : List Chunk} {free : Leftover → Bool}
    (left : ∀ c ∈ paired, ∃ l ∈ Leftover.of chunks other, l.chunk = c)
    (partner : ∀ l ∈ Leftover.of chunks other, free l = false → l.chunk ∈ paired) {c : Chunk} :
    c ∈ ((Leftover.of chunks other).filter free).map (·.chunk) ++ paired ↔
      c ∈ chunks ∧ ∀ o ∈ other, o.signature ≠ c.signature := by
  have listed {l : Leftover} (isLeft : l ∈ Leftover.of chunks other) :
      l.chunk ∈ chunks ∧ ∀ o ∈ other, o.signature ≠ l.chunk.signature :=
    (Leftover.mem_of.1 isLeft).imp_left List.mem_of_getElem?
  constructor
  · intro mem
    obtain isFree | isPaired := List.mem_append.1 mem
    · obtain ⟨l, kept, rfl⟩ := List.mem_map.1 isFree
      exact listed (List.mem_filter.1 kept).1
    · obtain ⟨l, isLeft, rfl⟩ := left c isPaired
      exact listed isLeft
  · intro ⟨mem, lacks⟩
    obtain ⟨i, here⟩ := List.mem_iff_getElem?.1 mem
    have isLeft : (⟨i, c⟩ : Leftover) ∈ Leftover.of chunks other := Leftover.mem_of.2 ⟨here, lacks⟩
    cases isFree : free ⟨i, c⟩ with
    | true => exact List.mem_append_left _ (List.mem_map.2 ⟨_, List.mem_filter.2 ⟨isLeft, isFree⟩, rfl⟩)
    | false => exact List.mem_append_right _ (partner _ isLeft isFree)

section Compute

variable {flag : CancelFlag} {config : DeltaConfig} {source : Source} {old new : List Chunk} {d : Delta}
  (computed : (computeUnless flag config source old new).result = .ok d)
include computed

/-- A chunk is removed or changed just when the new revision lacks its signature. -/
theorem lost_iff (c : Chunk) : c ∈ d.lost ↔ c ∈ old ∧ ∀ o ∈ new, o.signature ≠ c.signature := by
  obtain ⟨pairs, matching, rfl⟩ := exists_matching_of_compute computed
  refine mem_side_iff (fun c isOrigin => ?_) fun l isLeft paired => ?_
  · exact (leftovers_of_assemble old new pairs).1 c (List.mem_append_right _ isOrigin)
  · obtain ⟨p, mem, same⟩ := List.any_eq_true.1 (Bool.not_eq_eq_eq_not.1 paired)
    obtain ⟨l', e, pairing⟩ := exists_pairing matching mem
    obtain ⟨-, ⟨isLeft', place⟩, -⟩ := (mem_pairings matching).1 pairing
    obtain rfl := Leftover.eq_of_index isLeft' isLeft (place.trans (beq_iff_eq.1 same))
    rw [assemble, changedBy_eq_map, List.map_map]
    exact List.mem_map.2 ⟨_, pairing, rfl⟩

/-- A chunk is added or changed to just when the old revision lacks its signature. -/
theorem gained_iff (c : Chunk) : c ∈ d.gained ↔ c ∈ new ∧ ∀ o ∈ old, o.signature ≠ c.signature := by
  obtain ⟨pairs, matching, rfl⟩ := exists_matching_of_compute computed
  refine mem_side_iff (fun c isChanged => ?_) fun l isLeft paired => ?_
  · exact (leftovers_of_assemble old new pairs).2 c (List.mem_append_right _ isChanged)
  · obtain ⟨p, mem, same⟩ := List.any_eq_true.1 (Bool.not_eq_eq_eq_not.1 paired)
    obtain ⟨e, l', pairing⟩ := exists_pairing matching mem
    obtain ⟨-, -, isLeft', place⟩ := (mem_pairings matching).1 pairing
    obtain rfl := Leftover.eq_of_index isLeft' isLeft (place.trans (beq_iff_eq.1 same))
    rw [assemble, changedBy_eq_map, List.map_map]
    exact List.mem_map.2 ⟨_, pairing, rfl⟩

theorem signatures_lost : Chunk.signatures d.lost = Chunk.signatures old \ Chunk.signatures new :=
  Chunk.signatures_of_lacking (lost_iff computed)

theorem signatures_gained : Chunk.signatures d.gained = Chunk.signatures new \ Chunk.signatures old :=
  Chunk.signatures_of_lacking (gained_iff computed)

end Compute

/-! ## Change records -/

section Changes

variable {d : Delta} {source : Source} {old new : List Chunk} {changes : List Change}
  (told : (d.changes source old new).result = .ok changes)
include told

/-- There is a record for each chunk that is removed, added or changed, with its
neighbours and the data that the source gives, and no other. -/
theorem mem_changes {x : Change} : x ∈ changes ↔
    (∃ c ∈ d.removed, Change.delete c (.of old c) = x) ∨
    (∃ c ∈ d.added, ∃ data, source c = .ok data ∧ Change.create data c (.of new c) = x) ∨
    ∃ e ∈ d.changed, ∃ data, source e.chunk = .ok data ∧
      Change.update data e.chunk e.origin (.of new e.chunk) = x := by
  obtain ⟨created, creates, told⟩ := Loading.result_bind_eq_ok.1 told
  obtain ⟨updated, updates, told⟩ := Loading.result_bind_eq_ok.1 told
  obtain rfl := Except.ok.inj told
  have loaded {c : Chunk} {data : Bytes} : (Loading.load source c).result = .ok data ↔ source c = .ok data := Iff.rfl
  simp only [Change.inOrderOf, List.mem_append, List.mem_mergeSort, List.mem_map,
    Loading.mem_result_mapM creates, Loading.mem_result_mapM updates, Loading.result_bind_eq_ok,
    Loading.result_pure, loaded, Except.ok.injEq]

theorem exists_data {c : Chunk} (mem : c ∈ d.gained) : ∃ data, source c = .ok data := by
  obtain ⟨created, creates, told⟩ := Loading.result_bind_eq_ok.1 told
  obtain ⟨updated, updates, -⟩ := Loading.result_bind_eq_ok.1 told
  obtain added | changed := List.mem_append.1 mem
  · obtain ⟨_, made⟩ := Loading.exists_result_mapM.1 ⟨_, creates⟩ c added
    obtain ⟨data, loaded, -⟩ := Loading.result_bind_eq_ok.1 made
    exact ⟨data, loaded⟩
  · obtain ⟨e, isChanged, rfl⟩ := List.mem_map.1 changed
    obtain ⟨_, made⟩ := Loading.exists_result_mapM.1 ⟨_, updates⟩ e isChanged
    obtain ⟨data, loaded, -⟩ := Loading.result_bind_eq_ok.1 made
    exact ⟨data, loaded⟩

theorem mem_lost_changes {c : Chunk} : c ∈ Change.lost changes ↔ c ∈ d.lost := by
  simp only [Change.lost, List.mem_filterMap, mem_changes told, lost, List.mem_append, List.mem_map]
  constructor
  · intro ⟨x, recorded, same⟩
    obtain ⟨c, mem, rfl⟩ | ⟨c, mem, data, loaded, rfl⟩ | ⟨e, mem, data, loaded, rfl⟩ := recorded
    · exact .inl (Option.some.inj same ▸ mem)
    · exact absurd same nofun
    · exact .inr ⟨e, mem, Option.some.inj same⟩
  · intro isLost
    obtain mem | ⟨e, mem, rfl⟩ := isLost
    · exact ⟨_, .inl ⟨c, mem, rfl⟩, rfl⟩
    · obtain ⟨data, loaded⟩ := exists_data told (List.mem_append_right _ (List.mem_map_of_mem mem))
      exact ⟨_, .inr (.inr ⟨e, mem, data, loaded, rfl⟩), rfl⟩

theorem mem_gained_changes {c : Chunk} {data : Bytes} :
    (c, data) ∈ Change.gained changes ↔ c ∈ d.gained ∧ source c = .ok data := by
  simp only [Change.gained, List.mem_filterMap, mem_changes told, gained, List.mem_append, List.mem_map]
  constructor
  · intro ⟨x, recorded, same⟩
    obtain ⟨c, mem, rfl⟩ | ⟨c, mem, data, loaded, rfl⟩ | ⟨e, mem, data, loaded, rfl⟩ := recorded
    · exact absurd same nofun
    · obtain ⟨rfl, rfl⟩ := Prod.mk.inj (Option.some.inj same)
      exact ⟨.inl mem, loaded⟩
    · obtain ⟨rfl, rfl⟩ := Prod.mk.inj (Option.some.inj same)
      exact ⟨.inr ⟨e, mem, rfl⟩, loaded⟩
  · intro ⟨isGained, loaded⟩
    obtain mem | ⟨e, mem, rfl⟩ := isGained
    · exact ⟨_, .inr (.inl ⟨c, mem, data, loaded, rfl⟩), rfl⟩
    · exact ⟨_, .inr (.inr ⟨e, mem, data, loaded, rfl⟩), rfl⟩

theorem signatures_lost_changes : Chunk.signatures (Change.lost changes) = Chunk.signatures d.lost := by
  ext s
  simp only [Chunk.mem_signatures, mem_lost_changes told]

theorem signatures_gained_changes :
    Chunk.signatures ((Change.gained changes).map (·.1)) = Chunk.signatures d.gained := by
  ext s
  simp only [Chunk.mem_signatures, List.mem_map, Prod.exists, mem_gained_changes told]
  constructor
  · intro ⟨_, ⟨c, data, ⟨mem, _⟩, isChunk⟩, same⟩
    exact ⟨c, mem, isChunk ▸ same⟩
  · intro ⟨c, mem, same⟩
    obtain ⟨data, loaded⟩ := exists_data told mem
    exact ⟨c, ⟨c, data, ⟨mem, loaded⟩, rfl⟩, same⟩

end Changes

end Delta

/-- Change records that turn one revision into another, as far as signatures and
payloads tell. -/
structure Change.Turn (changes : List Change) (source : Source) (old new : List Chunk) : Prop where
  signatures : Chunk.signatures new = (Chunk.signatures old \ Chunk.signatures (Change.lost changes)) ∪
    Chunk.signatures ((Change.gained changes).map (·.1))
  lost : Chunk.signatures (Change.lost changes) = Chunk.signatures old \ Chunk.signatures new
  gained : Chunk.signatures ((Change.gained changes).map (·.1)) = Chunk.signatures new \ Chunk.signatures old
  /-- The payload of a new chunk is in the old revision or in a record, and not in both. -/
  one_side : ∀ c ∈ new, Xor
    (∃ o ∈ old, o.signature = c.signature) (∃ g ∈ Change.gained changes, g.1.signature = c.signature)
  /-- The record is of the very chunk, with the data that the source has for it. -/
  carried : ∀ c ∈ new, (∀ o ∈ old, o.signature ≠ c.signature) →
    ∃ data, source c = .ok data ∧ (c, data) ∈ Change.gained changes
  data : ∀ g ∈ Change.gained changes, source g.1 = .ok g.2

namespace Delta

/-- **Change records turn the old revision into the new one.** Whatever the
configuration and the source, and however often signatures are repeated on
either side: if a delta is computed and its records are made, then without the
signatures of what the records delete or update, and with those of what they
create or update, the old revision has the signatures of the new one; and the
payload of a new chunk is either in the old revision or in such a record. -/
theorem changes_turn {config : DeltaConfig} {source : Source} {old new : List Chunk} {d : Delta}
    {changes : List Change} (computed : (compute config source old new).result = .ok d)
    (told : (d.changes source old new).result = .ok changes) : Change.Turn changes source old new := by
  have lost := (signatures_lost_changes told).trans (signatures_lost computed)
  have gained := (signatures_gained_changes told).trans (signatures_gained computed)
  have recorded (s : Signature) : (∃ g ∈ Change.gained changes, g.1.signature = s) ↔
      s ∈ Chunk.signatures new \ Chunk.signatures old := by
    simp only [← gained, Chunk.mem_signatures, List.mem_map, exists_exists_and_eq_and]
  refine ⟨?_, lost, gained, fun c mem => ?_, fun c mem lacks => ?_, fun g mem => ?_⟩
  · rw [lost, gained]
    ext s
    simp only [Finset.mem_union, Finset.mem_sdiff]
    tauto
  · have here : c.signature ∈ Chunk.signatures new := Chunk.mem_signatures.2 ⟨c, mem, rfl⟩
    rw [recorded, ← Chunk.mem_signatures, Finset.mem_sdiff, Xor]
    tauto
  · have isGained := (gained_iff computed c).2 ⟨mem, lacks⟩
    obtain ⟨data, loaded⟩ := exists_data told isGained
    exact ⟨data, loaded, (mem_gained_changes told).2 ⟨isGained, loaded⟩⟩
  · exact ((mem_gained_changes told).1 mem).2

/-- Of two old chunks with one signature one is paired and the other removed. -/
theorem changes_turn_repeated :
    let text : UInt8 → Chunk := fun n => ⟨⟨["x"]⟩, .text ⟨0, none, none⟩ ⟨1, none, none⟩, ⟨.sha256, [n]⟩⟩
    let source : Source := fun _ => .ok (Bytes.ofText "ab cd")
    let old := [text 1, text 3, text 3]
    let new := [text 4, text 1, text 1]
    let d : Delta := ⟨[⟨⟨.sha256, [1]⟩, [text 1], [text 1, text 1]⟩], [⟨text 3, text 4, 3⟩], [text 3], []⟩
    let changes : List Change :=
      [.delete (text 3) ⟨some (text 1), some (text 3)⟩,
        .update (Bytes.ofText "ab cd") (text 4) (text 3) ⟨none, some (text 1)⟩]
    (compute ⟨2, 0, true⟩ source old new).result = .ok d ∧ (d.changes source old new).result = .ok changes ∧
      Change.Turn changes source old new := by
  intro text source old new d changes
  have computed : (compute ⟨2, 0, true⟩ source old new).result = .ok d := by cbv
  have told : (d.changes source old new).result = .ok changes := by cbv
  exact ⟨computed, told, changes_turn computed told⟩

/-! ## Unchanged revisions -/

theorem isUnchanged_iff (d : Delta) : d.isUnchanged = true ↔ d.lost = [] ∧ d.gained = [] := by
  simp only [isUnchanged, Bool.and_eq_true, List.isEmpty_iff, lost, gained, List.append_eq_nil_iff,
    List.map_eq_nil_iff]
  tauto

theorem changes_eq_nil_iff (d : Delta) (source : Source) (old new : List Chunk) :
    (d.changes source old new).result = .ok [] ↔ d.isUnchanged = true := by
  rw [isUnchanged_iff]
  constructor
  · intro told
    refine ⟨List.eq_nil_iff_forall_not_mem.2 fun c mem => ?_, List.eq_nil_iff_forall_not_mem.2 fun c mem => ?_⟩
    · exact List.not_mem_nil ((mem_lost_changes told).2 mem)
    · obtain ⟨data, loaded⟩ := exists_data told mem
      exact List.not_mem_nil ((mem_gained_changes told).2 ⟨mem, loaded⟩)
  · intro ⟨noneLost, noneGained⟩
    obtain ⟨noneRemoved, noneChanged⟩ := List.append_eq_nil_iff.1 noneLost
    obtain ⟨noneAdded, -⟩ := List.append_eq_nil_iff.1 noneGained
    rw [changes, noneRemoved, noneAdded, List.map_eq_nil_iff.1 noneChanged]
    refine Loading.result_bind_eq_ok.2 ⟨[], rfl, Loading.result_bind_eq_ok.2 ⟨[], rfl, ?_⟩⟩
    rw [Loading.result_pure, Change.inOrderOf, List.append_nil, List.mergeSort_nil, List.map_nil, List.append_nil]

/-- **A delta is unchanged just when the same signatures occur in both revisions.**
Whatever the configuration and the source, then there are no change records, and
only then; but the chunks need not be the same ones, for that each signature must
also occur equally often on either side of its common entry. -/
theorem isUnchanged_iff_signatures {config : DeltaConfig} {source : Source} {old new : List Chunk} {d : Delta}
    (computed : (compute config source old new).result = .ok d) :
    (d.isUnchanged = true ↔ Chunk.signatures old = Chunk.signatures new) ∧
      (∀ payloads : Source, (d.changes payloads old new).result = .ok [] ↔ d.isUnchanged = true) ∧
      ((old.map (·.signature)).Perm (new.map (·.signature)) ↔
        d.isUnchanged = true ∧ ∀ e ∈ d.common, e.old.length = e.new.length) := by
  have unchanged : d.isUnchanged = true ↔ Chunk.signatures old = Chunk.signatures new := by
    have empty (chunks : List Chunk) : chunks = [] ↔ Chunk.signatures chunks = ∅ := by
      simp [Chunk.signatures]
    rw [isUnchanged_iff, empty, empty, signatures_lost computed, signatures_gained computed,
      Finset.sdiff_eq_empty_iff_subset, Finset.sdiff_eq_empty_iff_subset, Finset.Subset.antisymm_iff]
  refine ⟨unchanged, fun payloads => changes_eq_nil_iff d payloads old new, ?_⟩
  obtain ⟨shared, -, occurrences⟩ := (compute_account computed).2.1
  rw [unchanged, List.perm_iff_count]
  constructor
  · intro same
    refine ⟨List.toFinset_eq_of_perm _ _ (List.perm_iff_count.2 same), fun e mem => ?_⟩
    obtain ⟨isOld, isNew⟩ := occurrences e mem
    rw [isOld, isNew, ← Chunk.count_signature, ← Chunk.count_signature, same]
  · intro ⟨same, balanced⟩ s
    by_cases occurs : s ∈ d.common.map (·.signature)
    · obtain ⟨e, mem, rfl⟩ := List.mem_map.1 occurs
      obtain ⟨isOld, isNew⟩ := occurrences e mem
      rw [Chunk.count_signature, Chunk.count_signature, ← isOld, ← isNew, balanced e mem]
    · rw [shared, ← Chunk.mem_signatures, ← Chunk.mem_signatures, same, and_self] at occurs
      rw [List.count_eq_zero.2, List.count_eq_zero.2]
      · exact fun mem => occurs (List.mem_toFinset.2 mem)
      · exact fun mem => occurs (same ▸ List.mem_toFinset.2 mem)

/-- Every paragraph and blank run of the new text is in the old one. -/
theorem isUnchanged_iff_signatures_repeated :
    let chunks := fun text => Chunk.ofAsset ⟨.sha256, 4, none⟩ ⟨["x"]⟩ (Bytes.ofText text)
    let old := chunks "a\n\na"
    let new := chunks "a\n\na\n\na"
    ∃ d, (compute ⟨2, 0, true⟩ (fun _ => .error .cancelled) old new).result = .ok d ∧
      (d.isUnchanged = true ↔ Chunk.signatures old = Chunk.signatures new) ∧
      (∀ payloads : Source, (d.changes payloads old new).result = .ok [] ↔ d.isUnchanged = true) ∧
      ((old.map (·.signature)).Perm (new.map (·.signature)) ↔
        d.isUnchanged = true ∧ ∀ e ∈ d.common, e.old.length = e.new.length) := by
  intro chunks old new
  have computed : (compute ⟨2, 0, true⟩ (fun _ => .error .cancelled) old new).result =
      .ok (assemble old new []) := by decide +kernel
  exact ⟨_, computed, isUnchanged_iff_signatures computed⟩

/-- **An unchanged delta may hide a deletion**: where a paragraph that occurs twice
is deleted once, the delta is unchanged and has no records. -/
theorem isUnchanged_of_deleted :
    let chunks := fun text => Chunk.ofAsset ⟨.sha256, 4, none⟩ ⟨["x"]⟩ (Bytes.ofText text)
    let source : Source := fun _ => .error .cancelled
    let old := chunks "a\n\na\n\nb"
    let new := chunks "a\n\nb"
    ∃ d, (compute ⟨2, 0, true⟩ source old new).result = .ok d ∧ d.isUnchanged = true ∧
      (d.changes source old new).result = .ok [] ∧ old.length = 5 ∧ new.length = 3 ∧
      ¬ (old.map (·.signature)).Perm (new.map (·.signature)) := by
  intro chunks source old new
  have ⟨computed, unchanged, oldLength, newLength⟩ :
      (compute ⟨2, 0, true⟩ source old new).result = .ok (assemble old new []) ∧
        (assemble old new []).isUnchanged = true ∧ old.length = 5 ∧ new.length = 3 := by decide +kernel
  refine ⟨assemble old new [], computed, unchanged, ?_, oldLength, newLength, fun same => ?_⟩
  · exact (changes_eq_nil_iff _ source old new).2 unchanged
  · have := same.length_eq
    rw [List.length_map, List.length_map] at this
    omega

end Delta

end ContentChunks
