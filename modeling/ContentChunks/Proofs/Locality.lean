/-
Edits stay local. Where a text is replaced between two joins (`Joins`), the
chunks before and after it are those that they were, so their signatures are in
both revisions, and only chunks of what was replaced are left over.

Main statement: what a delta removes, adds and changes, and what its computation
asks for, lies in what was replaced (`Delta.compute_local`).
-/
import ContentChunks.Proofs.Greedy
import ContentChunks.Proofs.Joining

namespace ContentChunks

/-! ## What is asked for -/

namespace Loading

variable {α β : Type}

theorem mem_loads_bind {x : Loading α} {f : α → Loading β} {c : Chunk} (asked : c ∈ (x >>= f).loads) :
    c ∈ x.loads ∨ ∃ a, c ∈ (f a).loads := by
  change c ∈ (Loading.bind x f).loads at asked
  unfold Loading.bind at asked
  split at asked
  · exact .inl asked
  · exact (List.mem_append.1 asked).imp_right fun mem => ⟨_, mem⟩

theorem mem_loads_mapM {source : Source} {cs : List Leftover} {c : Chunk}
    (asked : c ∈ (cs.mapM fun c => load source c.chunk).loads) : ∃ l ∈ cs, l.chunk = c := by
  induction cs with
  | nil => exact absurd asked List.not_mem_nil
  | cons l rest ih =>
    rw [List.mapM_cons] at asked
    obtain first | ⟨_, asked⟩ := mem_loads_bind asked
    · exact ⟨l, List.mem_cons_self, (List.mem_singleton.1 first).symm⟩
    · obtain later | ⟨_, nowhere⟩ := mem_loads_bind asked
      · obtain ⟨l', mem, same⟩ := ih later
        exact ⟨l', List.mem_cons_of_mem l mem, same⟩
      · exact absurd nowhere List.not_mem_nil

end Loading

namespace Delta

variable {config : DeltaConfig} {flag : CancelFlag} {source : Source} {old new : List Chunk} {c : Chunk}

theorem mem_loads_pairs {removed added : List Leftover}
    (asked : c ∈ (pairs config flag source old new removed added).loads) : ∃ l ∈ removed ++ added, l.chunk = c := by
  unfold pairs at asked
  split at asked
  · exact absurd asked List.not_mem_nil
  obtain first | ⟨_, asked⟩ := Loading.mem_loads_bind asked
  · obtain ⟨l, mem, same⟩ := Loading.mem_loads_mapM first
    exact ⟨l, List.mem_append_left _ mem, same⟩
  obtain second | ⟨_, asked⟩ := Loading.mem_loads_bind asked
  · obtain ⟨l, mem, same⟩ := Loading.mem_loads_mapM second
    exact ⟨l, List.mem_append_right _ mem, same⟩
  · split at asked
    split at asked
    split at asked <;> exact absurd asked List.not_mem_nil

end Delta

/-! ## Edits -/

/-- A text between two others may be replaced: none has a disallowed byte, and
with either text in the middle all three join. -/
structure Edit (before old new after : Bytes) : Prop where
  allowed : ∀ part ∈ [before, old, new, after], ∀ b ∈ part, Kind.disallowed b = false
  joins_old : Joins before (old ++ after)
  old_joins : Joins old after
  joins_new : Joins before (new ++ after)
  new_joins : Joins new after

/-- Whether a chunk lies between two offsets of its asset. -/
def Chunk.Within (c : Chunk) (start stop : Nat) : Prop := start ≤ c.range.start ∧ c.range.stop ≤ stop

namespace Edit

variable {before old new after : Bytes} (h : Edit before old new after) (config : ChunkConfig) (location : Location)
include h

theorem symm : Edit before new old after where
  allowed part mem := h.allowed part (by simp at mem ⊢; tauto)
  joins_old := h.joins_new
  old_joins := h.new_joins
  joins_new := h.joins_old
  new_joins := h.old_joins

theorem chunks : Chunk.ofAsset config location (before ++ old ++ after) =
    Chunk.ofAsset config location before ++ (Chunk.ofAsset config location old ++
      (Chunk.ofAsset config location after).map (Chunk.past old)).map (Chunk.past before) := by
  have allowed (parts : List Bytes) (mem : parts ⊆ [before, old, new, after]) :
      ∀ b ∈ parts.flatten, Kind.disallowed b = false := by
    intro b listed
    obtain ⟨part, isPart, inPart⟩ := List.mem_flatten.1 listed
    exact h.allowed part (mem isPart) b inPart
  have all := allowed [before, old, after] (by simp)
  have later := allowed [old, after] (by simp)
  simp only [List.flatten_cons, List.flatten_nil, List.append_nil] at all later
  rw [List.append_assoc, Chunk.ofAsset_append all h.joins_old, Chunk.ofAsset_append later h.old_joins]

/-- **A chunk that the new revision lacks is in the edit**, for the chunks before
and after it are in both revisions. -/
theorem within_of_lacking {c : Chunk} (mem : c ∈ Chunk.ofAsset config location (before ++ old ++ after))
    (lacks : ∀ d ∈ Chunk.ofAsset config location (before ++ new ++ after), d.signature ≠ c.signature) :
    c.Within before.length (before ++ old).length := by
  rw [h.chunks] at mem
  rw [h.symm.chunks] at lacks
  simp only [List.mem_append, List.mem_map] at mem lacks
  obtain kept | ⟨c, edited | ⟨c, kept, rfl⟩, rfl⟩ := mem
  · exact absurd rfl (lacks c (.inl kept))
  · have inside := ((ofAsset_tiling config location old).1.inside c edited).2
    rw [Chunk.Within, Chunk.past, Range.start_past, Range.stop_past, List.length_append]
    omega
  · have other := lacks ((c.past new).past before) (.inr ⟨c.past new, .inr ⟨c, kept, rfl⟩, rfl⟩)
    exact absurd rfl other

theorem within_of_leftover {l : Leftover}
    (mem : l ∈ Leftover.of (Chunk.ofAsset config location (before ++ old ++ after))
      (Chunk.ofAsset config location (before ++ new ++ after))) :
    l.chunk ∈ Chunk.ofAsset config location (before ++ old ++ after) ∧
      l.chunk.Within before.length (before ++ old).length := by
  obtain ⟨here, lacks⟩ := Leftover.mem_of.1 mem
  have listed := List.mem_of_getElem? here
  exact ⟨listed, h.within_of_lacking config location listed lacks⟩

end Edit

namespace Delta

theorem leftovers_of_changedBy {pairs : List ScoredPair} {removed added : List Leftover} {x : Changed}
    (mem : x ∈ changedBy pairs removed added) :
    (∃ l ∈ removed, l.chunk = x.origin) ∧ ∃ l ∈ added, l.chunk = x.chunk := by
  simp only [changedBy_eq_map, pairings, List.mem_map, List.mem_filterMap, Option.bind_eq_some_iff,
    Option.map_eq_some_iff] at mem
  obtain ⟨_, ⟨c, isRemoved, p, -, d, found, rfl⟩, rfl⟩ := mem
  exact ⟨⟨c, isRemoved, rfl⟩, d, List.mem_of_find?_eq_some found, rfl⟩

theorem leftovers_of_assemble (old new : List Chunk) (pairs : List ScoredPair) :
    (∀ c ∈ (assemble old new pairs).removed ++ (assemble old new pairs).changed.map (·.origin),
      ∃ l ∈ Leftover.of old new, l.chunk = c) ∧
    ∀ c ∈ (assemble old new pairs).added ++ (assemble old new pairs).changed.map (·.chunk),
      ∃ l ∈ Leftover.of new old, l.chunk = c := by
  have left (free : Leftover → Bool) (all : List Leftover) {c : Chunk} (mem : c ∈ (all.filter free).map (·.chunk)) :
      ∃ l ∈ all, l.chunk = c := by
    obtain ⟨l, mem, same⟩ := List.mem_map.1 mem
    exact ⟨l, (List.mem_filter.1 mem).1, same⟩
  refine ⟨fun c mem => ?_, fun c mem => ?_⟩
  · obtain removed | changed := List.mem_append.1 mem
    · exact left _ _ removed
    · obtain ⟨x, isChanged, rfl⟩ := List.mem_map.1 changed
      exact (leftovers_of_changedBy isChanged).1
  · obtain added | changed := List.mem_append.1 mem
    · exact left _ _ added
    · obtain ⟨x, isChanged, rfl⟩ := List.mem_map.1 changed
      exact (leftovers_of_changedBy isChanged).2

/-- Whether a delta, if one is computed, only removes and changes some old chunks and
only adds and changes to some new ones, and whether no others are asked for. -/
structure Stays (computed : Loading Delta) (inOld inNew : Chunk → Prop) : Prop where
  old : ∀ d, computed.result = .ok d → ∀ c ∈ d.removed ++ d.changed.map (·.origin), inOld c
  new : ∀ d, computed.result = .ok d → ∀ c ∈ d.added ++ d.changed.map (·.chunk), inNew c
  loads : ∀ c ∈ computed.loads, inOld c ∨ inNew c

theorem stays_leftovers (flag : CancelFlag) (config : DeltaConfig) (source : Source) (old new : List Chunk) :
    Stays (computeUnless flag config source old new) (fun c => ∃ l ∈ Leftover.of old new, l.chunk = c)
      (fun c => ∃ l ∈ Leftover.of new old, l.chunk = c) := by
  refine ⟨fun d computed => ?_, fun d computed => ?_, fun c asked => ?_⟩
  · obtain ⟨pairs, -, rfl⟩ := exists_matching_of_compute computed
    exact (leftovers_of_assemble old new pairs).1
  · obtain ⟨pairs, -, rfl⟩ := exists_matching_of_compute computed
    exact (leftovers_of_assemble old new pairs).2
  · obtain paired | ⟨_, nowhere⟩ := Loading.mem_loads_bind asked
    · obtain ⟨l, isLeft, same⟩ := mem_loads_pairs paired
      refine (List.mem_append.1 isLeft).imp (fun mem => ?_) fun mem => ?_
      · exact ⟨l, (List.mem_filter.1 mem).1, same⟩
      · exact ⟨l, (List.mem_filter.1 mem).1, same⟩
    · exact absurd nowhere List.not_mem_nil

theorem Stays.mono {computed : Loading Delta} {inOld inNew inOld' inNew' : Chunk → Prop}
    (h : Stays computed inOld inNew) (old : ∀ c, inOld c → inOld' c) (new : ∀ c, inNew c → inNew' c) :
    Stays computed inOld' inNew' where
  old d computed c mem := old c (h.old d computed c mem)
  new d computed c mem := new c (h.new d computed c mem)
  loads c asked := (h.loads c asked).imp (old c) (new c)

/-- **Edits stay local.** Whatever the configurations, the location and the
source: where a text is replaced between two joins, what a delta removes and what
it changes lies in the text that was replaced, what it adds and what it changes
to lies in the one in its place, and no payload of any other chunk is asked for. -/
theorem compute_local {before old new after : Bytes} (edit : Edit before old new after) (chunkConfig : ChunkConfig)
    (location : Location) (config : DeltaConfig) (source : Source) :
    let oldChunks := Chunk.ofAsset chunkConfig location (before ++ old ++ after)
    let newChunks := Chunk.ofAsset chunkConfig location (before ++ new ++ after)
    Stays (compute config source oldChunks newChunks)
      (fun c => c ∈ oldChunks ∧ c.Within before.length (before ++ old).length)
      (fun c => c ∈ newChunks ∧ c.Within before.length (before ++ new).length) := by
  intro oldChunks newChunks
  refine (stays_leftovers .never config source oldChunks newChunks).mono (fun c left => ?_) fun c left => ?_
  · obtain ⟨l, mem, rfl⟩ := left
    exact edit.within_of_leftover chunkConfig location mem
  · obtain ⟨l, mem, rfl⟩ := left
    exact edit.symm.within_of_leftover chunkConfig location mem

/-- A paragraph becomes another with the same words. -/
theorem compute_local_paragraph :
    let chunks := fun middle =>
      Chunk.ofAsset ⟨.sha256, 4, none⟩ ⟨["x"]⟩ (Bytes.ofText "\n\n" ++ Bytes.ofText middle ++ Bytes.ofText "d")
    let computed := compute ⟨2, 0, true⟩ (fun _ => .ok (Bytes.ofText "b c")) (chunks "b\n\n") (chunks "c\n\n")
    Edit (Bytes.ofText "\n\n") (Bytes.ofText "b\n\n") (Bytes.ofText "c\n\n") (Bytes.ofText "d") ∧
      Stays computed (fun c => c ∈ chunks "b\n\n" ∧ c.Within 2 5) (fun c => c ∈ chunks "c\n\n" ∧ c.Within 2 5) ∧
      computed.result.toOption.map (·.changed.length) = some 1 := by
  intro chunks computed
  have edit : Edit (Bytes.ofText "\n\n") (Bytes.ofText "b\n\n") (Bytes.ofText "c\n\n") (Bytes.ofText "d") :=
    ⟨by decide +kernel, by decide, by decide, by decide, by decide⟩
  exact ⟨edit, compute_local edit ⟨.sha256, 4, none⟩ ⟨["x"]⟩ ⟨2, 0, true⟩ fun _ => .ok (Bytes.ofText "b c"), by
    decide +kernel⟩

end Delta

end ContentChunks
