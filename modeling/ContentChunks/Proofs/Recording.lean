/-
Change records one by one. Where no chunk is repeated, a chunk is found again by
being equal, so its neighbours are told truly and the steps of the new revision
stand in its order; and the first chunk that cannot be had ends it all.

Main statements:
- `Chunk.nodup_ofAsset`: in the chunks of an asset none is repeated.
- `Change.pairwise_inOrderOf`: steps are put in the order of their chunks.
- `Loading.result_mapM_eq_error`: what is loaded one by one fails with the first that fails.
- `Delta.changes_recorded`: the records are those of the delta, in order, or
  their making fails with the first load that fails.
-/
import ContentChunks.Proofs.ChangeRecords
import ContentChunks.Proofs.Tiling

namespace ContentChunks

/-! ## Chunks that are not repeated -/

namespace Chunk

/-- Whether a context holds what stands right before a chunk and right after it, and nothing at an end. -/
def Context.Around (chunks : List Chunk) (c : Chunk) (context : Context) : Prop :=
  ∃ front back, chunks = front ++ c :: back ∧ context = ⟨front.getLast?, back.head?⟩

theorem Context.around_at {chunks : List Chunk} {c : Chunk} {i : Nat} (here : chunks[i]? = some c) :
    Context.Around chunks c (.at chunks i) := by
  obtain ⟨within, rfl⟩ := List.getElem?_eq_some_iff.1 here
  refine ⟨chunks.take i, chunks.drop (i + 1), ?_, ?_⟩
  · rw [← List.drop_eq_getElem_cons within, List.take_append_drop]
  · rw [Context.at, if_pos within, List.getLast?_take, List.head?_drop]
    cases i with
    | zero => rfl
    | succ i => simp [List.getElem?_eq_getElem (Nat.lt_of_succ_lt within)]

theorem exists_idxOf? {chunks : List Chunk} {c : Chunk} (mem : c ∈ chunks) :
    chunks.idxOf? c = some (chunks.idxOf c) ∧ chunks[chunks.idxOf c]? = some c := by
  have within := List.idxOf_lt_length_of_mem mem
  refine ⟨?_, List.getElem?_eq_some_iff.2 ⟨within, List.getElem_idxOf within⟩⟩
  obtain ⟨i, found⟩ := Option.isSome_iff_exists.1 (List.isSome_idxOf?.2 mem)
  rw [List.idxOf_eq_getD_idxOf?, found, Option.getD_some]

theorem Context.around_of {chunks : List Chunk} {c : Chunk} (mem : c ∈ chunks) :
    Context.Around chunks c (.of chunks c) := by
  obtain ⟨found, here⟩ := exists_idxOf? mem
  rw [Context.of, found]
  exact around_at here

theorem map_idxOf_of_places {chunks cs : List Chunk} {places : List Nat} (once : chunks.Nodup)
    (here : places.map (chunks[·]?) = cs.map some) : cs.map (chunks.idxOf ·) = places := by
  induction places generalizing cs with
  | nil =>
    obtain rfl := List.map_eq_nil_iff.1 here.symm
    rfl
  | cons i places ih =>
    obtain ⟨c, cs, rfl, first, rest⟩ := List.map_eq_cons_iff.1 here.symm
    obtain ⟨within, rfl⟩ := List.getElem?_eq_some_iff.1 first.symm
    rw [List.map_cons, ih rest.symm, once.idxOf_getElem]

end Chunk

theorem Range.Tile.pairwise {here stop : Nat} {ranges : List Range} (h : Range.Tile here ranges stop) :
    (∀ r ∈ ranges, here ≤ r.start) ∧ ranges.Pairwise fun r s => r.start < s.start := by
  induction ranges generalizing here with
  | nil => exact ⟨by simp, .nil⟩
  | cons r rest ih =>
    obtain ⟨start, filled, h⟩ := h
    obtain ⟨later, order⟩ := ih h
    refine ⟨List.forall_mem_cons.2 ⟨Nat.le_of_eq start.symm, fun s mem => ?_⟩, .cons (fun s mem => ?_) order⟩
    · have := later s mem
      omega
    · have := later s mem
      omega

/-- **In the chunks of an asset none is repeated**, as they lie end to end and none is empty. -/
theorem Chunk.nodup_ofAsset (config : ChunkConfig) (location : Location) (data : Bytes) :
    (ofAsset config location data).Nodup := by
  unfold Chunk.ofAsset
  split
  · exact List.nodup_singleton _
  · have order := (Splitter.spans_tile data).1.ranges.pairwise.2
    rw [List.pairwise_map] at order
    refine List.pairwise_map.2 (order.imp fun less same => ?_)
    have sameRange := congrArg Chunk.range same
    dsimp only at sameRange
    exact Nat.lt_irrefl _ (sameRange ▸ less)

/-! ## Steps in order -/

namespace Change

variable {new : List Chunk} {steps : List Change}

/-- **Steps are put in the order of their chunks**, if these are found in the revision and none twice. -/
theorem pairwise_inOrderOf (known : ∀ x ∈ steps, x.chunk ∈ new) (once : (steps.map (new.idxOf ·.chunk)).Nodup) :
    ((inOrderOf new steps).map (new.idxOf ·.chunk)).Pairwise (· < ·) := by
  have perm : (inOrderOf new steps).Perm steps := List.mergeSort_perm ..
  have place {x : Change} (mem : x ∈ inOrderOf new steps) :
      unknownFirst (new.idxOf? x.chunk) = new.idxOf x.chunk + 1 := by
    rw [(Chunk.exists_idxOf? (known x (perm.subset mem))).1]
    rfl
  have order : (inOrderOf new steps).Pairwise fun x y =>
      decide (unknownFirst (new.idxOf? x.chunk) ≤ unknownFirst (new.idxOf? y.chunk)) = true := by
    refine List.pairwise_mergeSort (fun x y z => ?_) (fun x y => ?_) steps
    · simp only [decide_eq_true_eq]
      exact Nat.le_trans
    · simp only [Bool.or_eq_true, decide_eq_true_eq]
      exact Nat.le_total ..
  have apart := List.pairwise_map.1 ((perm.map (new.idxOf ·.chunk)).nodup_iff.2 once)
  refine List.pairwise_map.2 ((order.and apart).imp_of_mem fun hx hy both => ?_)
  obtain ⟨le, ne⟩ := both
  rw [decide_eq_true_eq, place hx, place hy] at le
  omega

end Change

/-! ## Loading one by one -/

/-- Whether of some items the first that has no result fails with an error. -/
def FirstFails {α β : Type} (result : α → Except Error β) (items : List α) (e : Error) : Prop :=
  ∃ front x back, items = front ++ x :: back ∧ (∀ y ∈ front, ∃ b, result y = .ok b) ∧ result x = .error e

section

variable {α β γ δ : Type} {result : α → Except Error β} {x : α} {items more : List α} {e : Error}

theorem firstFails_nil : ¬FirstFails result [] e := by
  intro ⟨front, x, back, empty, _⟩
  simp at empty

theorem firstFails_cons :
    FirstFails result (x :: items) e ↔ result x = .error e ∨ (∃ b, result x = .ok b) ∧ FirstFails result items e := by
  constructor
  · intro ⟨front, y, back, split, done, fails⟩
    cases front with
    | nil =>
      obtain ⟨rfl, rfl⟩ := List.cons.inj split
      exact .inl fails
    | cons z front =>
      obtain ⟨rfl, rfl⟩ := List.cons.inj split
      obtain ⟨first, done⟩ := List.forall_mem_cons.1 done
      exact .inr ⟨first, front, y, back, rfl, done, fails⟩
  · intro h
    rcases h with fails | ⟨first, front, y, back, rfl, done, fails⟩
    · exact ⟨[], x, items, rfl, by simp, fails⟩
    · exact ⟨x :: front, y, back, rfl, List.forall_mem_cons.2 ⟨first, done⟩, fails⟩

theorem firstFails_append : FirstFails result (items ++ more) e ↔
    FirstFails result items e ∨ (∀ x ∈ items, ∃ b, result x = .ok b) ∧ FirstFails result more e := by
  induction items with
  | nil => simp [firstFails_nil]
  | cons x items ih =>
    rw [List.cons_append, firstFails_cons, firstFails_cons, ih, List.forall_mem_cons]
    tauto

theorem firstFails_map {itemOf : γ → α} {make : γ → β → δ} {chosen : List γ} :
    FirstFails (fun c => (result (itemOf c)).map (make c)) chosen e ↔ FirstFails result (chosen.map itemOf) e := by
  induction chosen with
  | nil => simp [firstFails_nil]
  | cons c chosen ih =>
    rw [List.map_cons, firstFails_cons, firstFails_cons, ih]
    cases result (itemOf c) <;> simp [Except.map]

end

namespace Loading

variable {α β : Type} {f : α → Loading β} {items : List α} {e : Error}

theorem result_bind_eq_error {x : Loading α} :
    (x >>= f).result = .error e ↔ x.result = .error e ∨ ∃ a, x.result = .ok a ∧ (f a).result = .error e := by
  show (Loading.bind x f).result = .error e ↔ _
  unfold Loading.bind
  split
  · rename_i e' failed
    simp [failed]
  · rename_i a done
    simp [done]

/-- **What is loaded one by one fails with the first that fails.** -/
theorem result_mapM_eq_error : (items.mapM f).result = .error e ↔ FirstFails (fun x => (f x).result) items e := by
  induction items with
  | nil => simp [firstFails_nil]
  | cons x rest ih =>
    rw [List.mapM_cons, firstFails_cons, ← ih]
    simp only [result_bind_eq_error, result_pure, reduceCtorEq, and_false, exists_false, or_false]
    rw [exists_and_right]

end Loading

/-! ## The records of a delta -/

namespace Change

/-- Whether a step deletes a chunk, in its old neighbourhood. -/
def Deletes (old : List Chunk) (c : Chunk) (x : Change) : Prop :=
  ∃ context, Chunk.Context.Around old c context ∧ x = .delete c context

/-- Whether a step creates a chunk, with its payload and in its new neighbourhood. -/
def Creates (source : Source) (new : List Chunk) (c : Chunk) (x : Change) : Prop :=
  ∃ data context, source c = .ok data ∧ Chunk.Context.Around new c context ∧ x = .create data c context

/-- Whether a step makes a changed chunk of its origin. -/
def Updates (source : Source) (new : List Chunk) (e : Changed) (x : Change) : Prop :=
  ∃ data context, source e.chunk = .ok data ∧ Chunk.Context.Around new e.chunk context ∧
    x = .update data e.chunk e.origin context

end Change

namespace Delta

/-- Whether change records are those of a delta: what deletes, in old order, and
then what creates and updates, in new order. -/
structure Recorded (d : Delta) (source : Source) (old new : List Chunk) (deleted forward : List Change) : Prop where
  each_removed : List.Forall₂ (Change.Deletes old) d.removed deleted
  /-- There is one step for each added and each changed chunk, and no other. -/
  each_gained : ∃ created updated, List.Forall₂ (Change.Creates source new) d.added created ∧
    List.Forall₂ (Change.Updates source new) d.changed updated ∧ forward.Perm (created ++ updated)
  old_order : (deleted.map (old.idxOf ·.chunk)).Pairwise (· < ·)
  new_order : (forward.map (new.idxOf ·.chunk)).Pairwise (· < ·)

section

variable {d : Delta} {source : Source} {old new : List Chunk}

theorem result_step {chunk : Chunk} (make : Bytes → Change) :
    (do return make (← Loading.load source chunk) : Loading Change).result = (source chunk).map make :=
  congrArg Loading.result (Loading.bind_pure_map make (Loading.load source chunk))

/-- **The records fail with the first load that fails**, and only then. -/
theorem result_changes_eq_error {e : Error} : (d.changes source old new).result = .error e ↔
    FirstFails source (d.added ++ d.changed.map (·.chunk)) e := by
  have loaded {c : Chunk} {make : Bytes → Change} :
      (∃ x, (source c).map make = .ok x) ↔ ∃ data, source c = .ok data := by
    cases source c <;> simp [Except.map]
  have added : FirstFails (fun c => (source c).map fun data => Change.create data c (.of new c)) d.added e ↔
      FirstFails source d.added e := by
    conv => rhs; rw [← List.map_id d.added]
    exact firstFails_map
  have changed : FirstFails
      (fun c => (source c.chunk).map fun data => Change.update data c.chunk c.origin (.of new c.chunk)) d.changed e ↔
      FirstFails source (d.changed.map (·.chunk)) e := firstFails_map
  rw [firstFails_append, ← added, ← changed, changes]
  simp only [Loading.result_bind_eq_error, Loading.result_mapM_eq_error, result_step, Loading.result_pure,
    reduceCtorEq, and_false, exists_false, or_false]
  rw [exists_and_right, Loading.exists_result_mapM]
  simp only [result_step, loaded]

theorem map_chunk_of_forall₂ {α : Type} (chunkOf : α → Chunk) {made : α → Change → Prop} {items : List α}
    {steps : List Change} (of : ∀ c x, made c x → x.chunk = chunkOf c) (each : List.Forall₂ made items steps) :
    steps.map (·.chunk) = items.map chunkOf := by
  induction each with
  | nil => rfl
  | cons first _ ih => rw [List.map_cons, List.map_cons, of _ _ first, ih]

section Told

variable {changes : List Change} (known : ∀ c ∈ d.gained, c ∈ new)
  (told : (d.changes source old new).result = .ok changes)
include known told

/-- The records are those that the chunks call for. -/
theorem exists_steps_of_changes : ∃ created updated, List.Forall₂ (Change.Creates source new) d.added created ∧
    List.Forall₂ (Change.Updates source new) d.changed updated ∧
    changes = (d.removed.map fun c => Change.delete c (.of old c)) ++ Change.inOrderOf new (created ++ updated) := by
  obtain ⟨created, creates, told⟩ := Loading.result_bind_eq_ok.1 told
  obtain ⟨updated, updates, told⟩ := Loading.result_bind_eq_ok.1 told
  have isAdded : ∀ c ∈ d.added, c ∈ new := fun c mem => known c (List.mem_append_left _ mem)
  have isChanged : ∀ c ∈ d.changed, c.chunk ∈ new := fun c mem =>
    known c.chunk (List.mem_append_right _ (List.mem_map_of_mem mem))
  refine ⟨created, updated, ?_, ?_, (Except.ok.inj told).symm⟩
  · refine ((List.forall₂_and_left _ _).2 ⟨isAdded, Loading.forall₂_of_mapM creates⟩).imp fun c x made => ?_
    obtain ⟨mem, made⟩ := made
    obtain ⟨data, loaded, made⟩ := Loading.result_bind_eq_ok.1 made
    exact ⟨data, _, loaded, Chunk.Context.around_of mem, (Except.ok.inj made).symm⟩
  · refine ((List.forall₂_and_left _ _).2 ⟨isChanged, Loading.forall₂_of_mapM updates⟩).imp fun c x made => ?_
    obtain ⟨mem, made⟩ := made
    obtain ⟨data, loaded, made⟩ := Loading.result_bind_eq_ok.1 made
    exact ⟨data, _, loaded, Chunk.Context.around_of mem, (Except.ok.inj made).symm⟩

end Told

theorem places_of_exact {a : Account} (exact : a.Exact old new d) (oldOnce : old.Nodup) (newOnce : new.Nodup) :
    d.removed.map (old.idxOf ·) = a.removed ∧ d.gained.map (new.idxOf ·) = a.added ++ a.changed.map (·.2) := by
  refine ⟨Chunk.map_idxOf_of_places oldOnce exact.removed, Chunk.map_idxOf_of_places newOnce ?_⟩
  have changed := congrArg (List.map Prod.snd) exact.changed
  rw [List.map_map, List.map_map] at changed
  rw [gained, List.map_append, List.map_append, exact.added, List.map_map, List.map_map]
  exact congrArg (_ ++ ·) changed

theorem nodup_places_gained {a : Account} (exact : a.Exact old new d) : (a.added ++ a.changed.map (·.2)).Nodup := by
  have all := exact.new_once.nodup_iff.2 List.nodup_range
  rw [List.append_assoc] at all
  exact List.perm_append_comm.nodup_iff.1 (List.nodup_append.1 all).2.1

theorem map_chunk_steps {created updated : List Change} (creates : List.Forall₂ (Change.Creates source new) d.added created)
    (updates : List.Forall₂ (Change.Updates source new) d.changed updated) :
    (created ++ updated).map (·.chunk) = d.gained := by
  have ofCreated := map_chunk_of_forall₂ id (fun c x ⟨_, _, _, _, made⟩ => congrArg Change.chunk made) creates
  have ofUpdated := map_chunk_of_forall₂ (·.chunk) (fun c x ⟨_, _, _, _, made⟩ => congrArg Change.chunk made) updates
  rw [List.map_append, ofCreated, ofUpdated, List.map_id, gained]

end

/-- **Change records are those of their delta, in order.** Where no chunk is
repeated in either revision, as none is in what an asset is cut into, the records
of a computed delta are a deletion for each chunk that is removed, in old order,
then a creation for each that is added and an update for each that is changed, in
new order: each with the payload that the source gives and the neighbours that the
chunk has. They fail just when a load fails, with the first that does. -/
theorem changes_recorded {config : DeltaConfig} {texts source : Source} {old new : List Chunk} {d : Delta}
    (oldOnce : old.Nodup) (newOnce : new.Nodup) (computed : (compute config texts old new).result = .ok d) :
    (∀ changes, (d.changes source old new).result = .ok changes →
      ∃ deleted forward, changes = deleted ++ forward ∧ Recorded d source old new deleted forward) ∧
    (∀ e, (d.changes source old new).result = .error e ↔ FirstFails source (d.added ++ d.changed.map (·.chunk)) e) ∧
    ∀ chunkConfig location data, (Chunk.ofAsset chunkConfig location data).Nodup := by
  refine ⟨fun changes told => ?_, fun e => result_changes_eq_error, Chunk.nodup_ofAsset⟩
  have isOld : ∀ c ∈ d.removed, c ∈ old := fun c mem => ((lost_iff computed c).1 (List.mem_append_left _ mem)).1
  have isNew : ∀ c ∈ d.gained, c ∈ new := fun c mem => ((gained_iff computed c).1 mem).1
  obtain ⟨created, updated, creates, updates, rfl⟩ := exists_steps_of_changes isNew told
  obtain ⟨pairs, matching, rfl⟩ := exists_matching_of_compute computed
  have exact := exact_accountOf matching
  obtain ⟨removed, gained⟩ := places_of_exact exact oldOnce newOnce
  have chunks := map_chunk_steps creates updates
  have once : ((created ++ updated).map (new.idxOf ·.chunk)).Nodup := by
    have places := congrArg (List.map (new.idxOf ·)) chunks
    rw [List.map_map, gained] at places
    exact places ▸ nodup_places_gained exact
  have deletes : List.Forall₂ (Change.Deletes old) (assemble old new pairs).removed
      ((assemble old new pairs).removed.map fun c => Change.delete c (.of old c)) :=
    List.forall₂_map_right_iff.2 (List.forall₂_same.2 fun c mem => ⟨_, Chunk.Context.around_of (isOld c mem), rfl⟩)
  refine ⟨_, _, rfl, deletes, ⟨created, updated, creates, updates, List.mergeSort_perm ..⟩, ?_, ?_⟩
  · rw [List.map_map]
    exact removed ▸ exact.removed_sorted
  · refine Change.pairwise_inOrderOf (fun x mem => isNew _ ?_) once
    rw [← chunks]
    exact List.mem_map_of_mem mem

/-- A chunk is deleted, one is created and one updated; and where the payload of the created one is missing,
there are no records. -/
theorem changes_recorded_paragraphs :
    let text : UInt8 → Chunk := fun n => ⟨⟨["x"]⟩, .text ⟨0, none, none⟩ ⟨1, none, none⟩, ⟨.sha256, [n]⟩⟩
    let source : Source := fun c => .ok (Bytes.ofText (if c.signature.digest = [5] then "ef gh" else "ab cd"))
    let lacking : Source := fun c => if c.signature.digest = [5] then .error .cancelled else source c
    let old := [text 1, text 2, text 3]
    let new := [text 5, text 3, text 4]
    let d : Delta := ⟨[⟨⟨.sha256, [3]⟩, [text 3], [text 3]⟩], [⟨text 1, text 4, 3⟩], [text 2], [text 5]⟩
    let changes : List Change :=
      [.delete (text 2) ⟨some (text 1), some (text 3)⟩,
        .create (Bytes.ofText "ef gh") (text 5) ⟨none, some (text 3)⟩,
        .update (Bytes.ofText "ab cd") (text 4) (text 1) ⟨some (text 3), none⟩]
    old.Nodup ∧ new.Nodup ∧ (compute ⟨2, 0, true⟩ source old new).result = .ok d ∧
      (d.changes source old new).result = .ok changes ∧
      (∃ deleted forward, changes = deleted ++ forward ∧ Recorded d source old new deleted forward) ∧
      (d.changes lacking old new).result = .error .cancelled := by
  intro text source lacking old new d changes
  have oldOnce : old.Nodup := by decide
  have newOnce : new.Nodup := by decide
  have computed : (compute ⟨2, 0, true⟩ source old new).result = .ok d := by cbv
  have told : (d.changes source old new).result = .ok changes := by cbv
  refine ⟨oldOnce, newOnce, computed, told, (changes_recorded oldOnce newOnce computed).1 changes told, ?_⟩
  exact ((changes_recorded oldOnce newOnce computed).2.1 _).2 ⟨[], text 5, [text 4], rfl, by simp, rfl⟩

end Delta

end ContentChunks
