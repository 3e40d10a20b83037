/-
What a delta asks its source for. A computation that asks for some chunks one
after the other, up to the first that cannot be had, is told by these chunks
(`Loading.Asks`): what follows it is asked for after them, and loading for each
item asks for the chunks of the items. A delta asks for the texts that are left
over, the old ones first, if there are some on both sides.

Main statements:
- `Loading.Asks.bind`, `Loading.asks_mapM`: what is asked for in turn.
- `Delta.asks_compute`: a delta asks for the texts that only one revision has.
- `Delta.compute_loads`: so the loads are these up to the first that fails, and
  what the source has for any other chunk does not matter.
-/
import ContentChunks.Proofs.Recording

namespace ContentChunks

namespace Loading

variable {α β : Type} {source : Source} {cs ds : List Chunk}

/-- Whether a computation asks a source for some chunks one after the other, and
fails right after the first that cannot be had, if there is one. -/
inductive Asks (source : Source) : List Chunk → Loading α → Prop
  | all {cs : List Chunk} (had : ∀ c ∈ cs, ∃ data, source c = .ok data) (a : α) : Asks source cs ⟨cs, .ok a⟩
  | cut {front : List Chunk} {c : Chunk} {e : Error} (had : ∀ x ∈ front, ∃ data, source x = .ok data)
      (fails : source c = .error e) (back : List Chunk) : Asks source (front ++ c :: back) ⟨front ++ [c], .error e⟩

theorem asks_pure (a : α) : (pure a : Loading α).Asks source [] := .all (List.forall_mem_nil _) a

theorem asks_load (c : Chunk) : (load source c).Asks source [c] := by
  unfold load
  cases loaded : source c with
  | ok data => exact .all (by simp [loaded]) data
  | error e =>
    show Asks source ([] ++ c :: []) ⟨[] ++ [c], .error e⟩
    exact .cut (List.forall_mem_nil _) loaded []

/-- **What is asked for in turn** is asked for one after the other. -/
theorem Asks.bind {x : Loading α} {f : α → Loading β} (first : x.Asks source cs)
    (next : ∀ a, (f a).Asks source ds) : (x >>= f).Asks source (cs ++ ds) := by
  show (Loading.bind x f).Asks source (cs ++ ds)
  cases first with
  | cut had fails back =>
    rw [List.append_assoc]
    exact .cut had fails (back ++ ds)
  | all had a =>
    have second := next a
    simp only [Loading.bind]
    generalize f a = y at second
    cases second with
    | all more b => exact .all (List.forall_mem_append.2 ⟨had, more⟩) b
    | cut more fails back =>
      rw [← List.append_assoc, ← List.append_assoc]
      exact .cut (List.forall_mem_append.2 ⟨had, more⟩) fails back

theorem Asks.bind_pure {x : Loading α} (asks : x.Asks source cs) (f : α → β) :
    (x >>= fun a => pure (f a)).Asks source cs := by
  have all := asks.bind fun a => asks_pure (f a)
  rwa [List.append_nil] at all

theorem asks_mapM {f : α → Loading β} (chunkOf : α → Chunk) (each : ∀ x, (f x).Asks source [chunkOf x])
    (items : List α) : (items.mapM f).Asks source (items.map chunkOf) := by
  induction items with
  | nil => exact asks_pure []
  | cons x rest ih =>
    rw [List.mapM_cons, List.map_cons]
    exact (each x).bind fun b => ih.bind_pure (b :: ·)

theorem not_firstFails {e : Error} (had : ∀ c ∈ cs, ∃ data, source c = .ok data) : ¬FirstFails source cs e := by
  intro ⟨front, c, back, split, _, fails⟩
  obtain ⟨data, loaded⟩ := had c (by simp [split])
  simp [fails] at loaded

theorem Asks.exists_result_iff {x : Loading α} (asks : x.Asks source cs) :
    (∃ a, x.result = .ok a) ↔ ∀ c ∈ cs, ∃ data, source c = .ok data := by
  cases asks with
  | all had a => exact ⟨fun _ => had, fun _ => ⟨a, rfl⟩⟩
  | cut before fails back =>
    exact ⟨nofun, fun had => absurd ⟨_, _, back, rfl, before, fails⟩ (not_firstFails had)⟩

theorem Asks.result_eq_error_iff {x : Loading α} (asks : x.Asks source cs) {e : Error} :
    x.result = .error e ↔ FirstFails source cs e := by
  cases asks with
  | all had a => exact ⟨nofun, fun fails => absurd fails (not_firstFails had)⟩
  | cut had fails back =>
    rw [firstFails_append, firstFails_cons, fails]
    simpa [not_firstFails had] using fun _ => had

theorem Asks.mem_of_mem_loads {x : Loading α} (asks : x.Asks source cs) {c : Chunk} (asked : c ∈ x.loads) :
    c ∈ cs := by
  cases asks with
  | all => exact asked
  | cut _ _ back =>
    rw [List.append_cons]
    exact List.mem_append_left back asked

theorem mapM_congr {f g : α → Loading β} {items : List α} (same : ∀ x ∈ items, f x = g x) :
    items.mapM f = items.mapM g := by
  induction items with
  | nil => rfl
  | cons x rest ih =>
    obtain ⟨first, rest⟩ := List.forall_mem_cons.1 same
    rw [List.mapM_cons, List.mapM_cons, first, ih rest]

end Loading

theorem CancelFlag.seen_never (loads pairs : Nat) : never.seen loads pairs = false := by simp [seen, never]

namespace Delta

/-- The texts of a revision whose signature another one lacks, in order. -/
def textsOnlyIn (chunks other : List Chunk) : List Chunk :=
  chunks.filter fun c => c.range.isText && !other.any fun d => d.signature == c.signature

theorem mem_textsOnlyIn {chunks other : List Chunk} {c : Chunk} :
    c ∈ textsOnlyIn chunks other ↔ c ∈ chunks ∧ c.range.isText = true ∧ ∀ d ∈ other, d.signature ≠ c.signature := by
  simp [textsOnlyIn]

theorem map_chunk_texts (chunks other : List Chunk) :
    ((Leftover.of chunks other).filter Leftover.isText).map (·.chunk) = textsOnlyIn chunks other := by
  conv => rhs; rw [textsOnlyIn, ← List.zipIdx_map_fst 0 chunks]
  rw [Leftover.of, List.filter_map, List.map_map, List.filter_filter, List.filter_map]
  simp only [Function.comp_def, Leftover.isText, Chunk.isBinary, Bool.not_not]

theorem texts_eq_nil_iff {chunks other : List Chunk} :
    (Leftover.of chunks other).filter Leftover.isText = [] ↔ textsOnlyIn chunks other = [] := by
  rw [← map_chunk_texts, List.map_eq_nil_iff]

variable {config : DeltaConfig} {flag : CancelFlag} {source : Source} {old new : List Chunk}

theorem pairs_of_empty {removed added : List Leftover} (empty : removed = [] ∨ added = []) :
    pairs config flag source old new removed added = pure [] := by
  unfold pairs
  rw [if_pos (by simpa using empty)]

theorem asks_mapM_load (cs : List Leftover) :
    (cs.mapM fun c => Loading.load source c.chunk).Asks source (cs.map (·.chunk)) :=
  Loading.asks_mapM (·.chunk) (fun c => Loading.asks_load c.chunk) cs

theorem asks_pairs {removed added : List Leftover} (someRemoved : removed ≠ []) (someAdded : added ≠ []) :
    (pairs config .never source old new removed added).Asks source
      (removed.map (·.chunk) ++ added.map (·.chunk)) := by
  unfold pairs
  rw [if_neg (by simp [someRemoved, someAdded])]
  refine (asks_mapM_load removed).bind fun removedPayloads => ?_
  rw [← List.append_nil (added.map (·.chunk))]
  refine (asks_mapM_load added).bind fun addedPayloads => ?_
  split
  split
  rw [CancelFlag.seen_never, if_neg Bool.false_ne_true]
  exact Loading.asks_pure _

theorem pairs_congr {other : Source} {removed added : List Leftover}
    (same : ∀ c ∈ removed ++ added, other c.chunk = source c.chunk) :
    pairs config flag other old new removed added = pairs config flag source old new removed added := by
  obtain ⟨sameRemoved, sameAdded⟩ := List.forall_mem_append.1 same
  have load {c : Chunk} (same : other c = source c) : Loading.load other c = Loading.load source c := by
    rw [Loading.load, Loading.load, same]
  unfold pairs
  rw [Loading.mapM_congr fun c mem => load (sameRemoved c mem), Loading.mapM_congr fun c mem => load (sameAdded c mem)]

theorem compute_of_empty (empty : textsOnlyIn old new = [] ∨ textsOnlyIn new old = []) :
    compute config source old new = pure (assemble old new []) := by
  rw [← texts_eq_nil_iff, ← texts_eq_nil_iff] at empty
  unfold compute computeUnless
  rw [pairs_of_empty empty]
  rfl

/-- **A delta asks for the texts that only one revision has**, the old ones first. -/
theorem asks_compute (someRemoved : textsOnlyIn old new ≠ []) (someAdded : textsOnlyIn new old ≠ []) :
    (compute config source old new).Asks source (textsOnlyIn old new ++ textsOnlyIn new old) := by
  have asks : (pairs config .never source old new _ _).Asks source _ :=
    asks_pairs (mt texts_eq_nil_iff.1 someRemoved) (mt texts_eq_nil_iff.1 someAdded)
  rw [map_chunk_texts, map_chunk_texts] at asks
  exact asks.bind_pure (assemble old new)

/-- A delta fails just as the first text does that cannot be had, if it asks for any. -/
theorem result_compute_eq_error_iff {e : Error} : (compute config source old new).result = .error e ↔
    (textsOnlyIn old new ≠ [] ∧ textsOnlyIn new old ≠ []) ∧
      FirstFails source (textsOnlyIn old new ++ textsOnlyIn new old) e := by
  by_cases empty : textsOnlyIn old new = [] ∨ textsOnlyIn new old = []
  · rw [compute_of_empty empty, ← not_or]
    exact ⟨nofun, fun both => absurd empty both.1⟩
  · rw [← not_or, and_iff_right empty]
    exact (asks_compute (not_or.1 empty).1 (not_or.1 empty).2).result_eq_error_iff

theorem asked_only_texts {c : Chunk} (asked : c ∈ (compute config source old new).loads) :
    c ∈ textsOnlyIn old new ++ textsOnlyIn new old := by
  by_cases empty : textsOnlyIn old new = [] ∨ textsOnlyIn new old = []
  · rw [compute_of_empty empty] at asked
    exact absurd asked List.not_mem_nil
  · obtain ⟨someRemoved, someAdded⟩ := not_or.1 empty
    exact (asks_compute someRemoved someAdded).mem_of_mem_loads asked

theorem compute_congr {other : Source} (same : ∀ c ∈ textsOnlyIn old new ++ textsOnlyIn new old, other c = source c) :
    compute config other old new = compute config source old new := by
  unfold compute computeUnless
  rw [pairs_congr fun c mem => same c.chunk ?_]
  rw [← map_chunk_texts, ← map_chunk_texts, ← List.map_append]
  exact List.mem_map_of_mem mem

/-- **What a delta loads.** Whatever the sequences, the configuration and the source: where
no text is left over on one side, nothing is loaded and a delta is computed. Otherwise the
loads are the texts that only the old sequence has and then those that only the new one has,
each as often as it occurs, up to the first that cannot be had, whose failure is the result;
and if there is none, a delta is computed. So no binary chunk is loaded, and none whose
signature both sequences have, and it does not matter what the source has for these. -/
theorem compute_loads (config : DeltaConfig) (source : Source) (old new : List Chunk) :
    let texts := textsOnlyIn old new ++ textsOnlyIn new old
    let computed := compute config source old new
    (textsOnlyIn old new = [] ∨ textsOnlyIn new old = [] → computed.loads = [] ∧ ∃ d, computed.result = .ok d) ∧
      (textsOnlyIn old new ≠ [] → textsOnlyIn new old ≠ [] → computed.Asks source texts) ∧
      (∀ c : Chunk, c.isBinary = true ∨
        (∃ o ∈ old, o.signature = c.signature) ∧ (∃ n ∈ new, n.signature = c.signature) → c ∉ computed.loads) ∧
      ∀ other : Source, (∀ c ∈ texts, other c = source c) → compute config other old new = computed := by
  intro texts computed
  refine ⟨fun empty => ?_, asks_compute, fun c kept asked => ?_, fun other => compute_congr⟩
  · have same : computed = pure (assemble old new []) := compute_of_empty empty
    rw [same]
    exact ⟨rfl, _, rfl⟩
  · have text : c.range.isText = true ∧ ((∀ n ∈ new, n.signature ≠ c.signature) ∨ ∀ o ∈ old, o.signature ≠ c.signature) := by
      obtain removed | added := List.mem_append.1 (asked_only_texts asked)
      · obtain ⟨-, text, lacks⟩ := mem_textsOnlyIn.1 removed
        exact ⟨text, .inl lacks⟩
      · obtain ⟨-, text, lacks⟩ := mem_textsOnlyIn.1 added
        exact ⟨text, .inr lacks⟩
    obtain ⟨text, lacks⟩ := text
    obtain binary | ⟨⟨o, isOld, sameOld⟩, n, isNew, sameNew⟩ := kept
    · simp [Chunk.isBinary, text] at binary
    · obtain lacks | lacks := lacks
      · exact lacks n isNew sameNew
      · exact lacks o isOld sameOld

/-- A text is repeated on either side, and the payload of the added one is missing, as are those of
the shared and of the binary chunks. -/
theorem compute_loads_missing :
    let text : UInt8 → Chunk := fun n => ⟨⟨["x"]⟩, .text ⟨0, none, none⟩ ⟨1, none, none⟩, ⟨.sha256, [n]⟩⟩
    let binary : UInt8 → Chunk := fun n => ⟨⟨["x"]⟩, .bytes 0 1, ⟨.sha256, [n]⟩⟩
    let source : Source := fun c =>
      if c.signature.digest.any (· < 3) then .ok (Bytes.ofText "ab cd") else .error (.notFound c.signature)
    let old := [text 1, text 9, text 2, binary 7, text 1]
    let new := [text 4, binary 8, text 9, text 4]
    textsOnlyIn old new ≠ [] ∧ textsOnlyIn new old ≠ [] ∧
      (compute ⟨2, 0, true⟩ source old new).Asks source [text 1, text 2, text 1, text 4, text 4] ∧
      compute ⟨2, 0, true⟩ source old new =
        ⟨[text 1, text 2, text 1, text 4], .error (.notFound (text 4).signature)⟩ := by
  intro text binary source old new
  have someRemoved : textsOnlyIn old new ≠ [] := by decide
  have someAdded : textsOnlyIn new old ≠ [] := by decide
  exact ⟨someRemoved, someAdded, (compute_loads ⟨2, 0, true⟩ source old new).2.1 someRemoved someAdded, by cbv⟩

end Delta

end ContentChunks
