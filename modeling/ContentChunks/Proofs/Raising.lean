/-
A higher threshold drops pairs, and does nothing else. Pairs are taken from the
best downwards, so those that score enough are taken before any that do not,
and none of them gets its chunks from a pair that is dropped.

Main statements:
- `ScoredPair.assign_raise`: a higher threshold keeps those of the pairs that score enough for it.
- `Delta.free_perm`: a place that is no longer changed is free.
- `Delta.compute_raised`: so a delta with a higher threshold is the one with the
  lower one, its weaker changes taken apart.
-/
import ContentChunks.Proofs.Greedy

namespace ContentChunks

/-! ## Taking pairs that score enough -/

namespace ScoredPair

variable {m : Nat} {taken rest pairs : List ScoredPair}

theorem exists_takeFree_eq (taken rest : List ScoredPair) :
    ∃ more, more ⊆ rest ∧ takeFree taken rest = taken.reverse ++ more := by
  induction rest generalizing taken with
  | nil => exact ⟨[], List.Subset.refl _, (List.append_nil _).symm⟩
  | cons p rest ih =>
    unfold takeFree
    split
    · obtain ⟨more, listed, same⟩ := ih taken
      exact ⟨more, List.subset_cons_of_subset p listed, same⟩
    · obtain ⟨more, listed, same⟩ := ih (p :: taken)
      exact ⟨p :: more, List.cons_subset_cons p listed, by rw [same, List.reverse_cons, List.append_assoc]; rfl⟩

/-- **The pairs that score enough are taken alike**, whether or not those that do not come after them. -/
theorem filter_takeFree (order : rest.Pairwise fun p q => (compare p q).isLE = true)
    (good : ∀ p ∈ taken, m ≤ p.score) :
    (takeFree taken rest).filter (fun p => m ≤ p.score) = takeFree taken (rest.filter fun p => m ≤ p.score) := by
  induction rest generalizing taken with
  | nil =>
    rw [List.filter_nil, takeFree, List.filter_eq_self]
    simpa using good
  | cons p rest ih =>
    obtain ⟨first, order⟩ := List.pairwise_cons.1 order
    by_cases enough : m ≤ p.score
    · rw [List.filter_cons_of_pos (by simpa using enough)]
      unfold takeFree
      split
      · exact ih order good
      · exact ih order (List.forall_mem_cons.2 ⟨enough, good⟩)
    · -- from here on no pair scores enough, as none is better than this one
      have weak : ∀ q ∈ p :: rest, ¬m ≤ q.score := by
        refine List.forall_mem_cons.2 ⟨enough, fun q mem => ?_⟩
        have worse := isLE_compare_iff.1 (first q mem)
        omega
      obtain ⟨more, listed, same⟩ := exists_takeFree_eq taken (p :: rest)
      have noMore : more.filter (fun p => m ≤ p.score) = [] :=
        List.filter_eq_nil_iff.2 fun q mem => by simpa using weak q (listed mem)
      have all : taken.reverse.filter (fun p => m ≤ p.score) = taken.reverse :=
        List.filter_eq_self.2 fun q mem => by simpa using good q (List.mem_reverse.1 mem)
      rw [same, List.filter_append, noMore, all, List.append_nil,
        List.filter_eq_nil_iff.2 fun q mem => by simpa using weak q mem, takeFree]

theorem sorted_filter (keep : ScoredPair → Bool) (pairs : List ScoredPair) :
    sorted (pairs.filter keep) = (sorted pairs).filter keep :=
  (eq_sorted_of_perm ((sorted_perm pairs).filter keep) ((pairwise_sorted pairs).filter keep)).symm

/-- **A higher threshold keeps those of the pairs that score enough for it.** -/
theorem assign_raise {minScore : Nat} (le : minScore ≤ m) (pairs : List ScoredPair) :
    assign m pairs = (assign minScore pairs).filter fun p => m ≤ p.score := by
  have twice : pairs.filter (fun p => m ≤ p.score) =
      (pairs.filter fun p => minScore ≤ p.score).filter fun p => m ≤ p.score := by
    rw [List.filter_filter]
    refine List.filter_congr fun p _ => ?_
    rw [Bool.eq_iff_iff, Bool.and_eq_true, decide_eq_true_iff, decide_eq_true_iff]
    omega
  rw [assign, assign, filter_takeFree (pairwise_sorted _) (by simp), ← sorted_filter, twice]

theorem Matching.filter {removed added : List Leftover} (h : Matching pairs removed added) (keep : ScoredPair → Bool) :
    Matching (pairs.filter keep) removed added where
  old p mem := h.old p (List.mem_filter.1 mem).1
  new p mem := h.new p (List.mem_filter.1 mem).1
  apart := h.apart.filter keep

end ScoredPair

namespace Delta

variable {config : DeltaConfig} {flag : CancelFlag} {source : Source} {old new : List Chunk} {m : Nat}

theorem pairs_raise {removed added : List Leftover} {ps : List ScoredPair} (le : config.minScore ≤ m)
    (h : (pairs config flag source old new removed added).result = .ok ps) :
    (pairs { config with minScore := m } flag source old new removed added).result =
      .ok (ps.filter fun p => m ≤ p.score) := by
  unfold pairs at h ⊢
  split at h
  · rename_i empty
    obtain rfl : [] = ps := Except.ok.inj h
    rw [if_pos empty]
    rfl
  · rename_i filled
    rw [if_neg filled]
    obtain ⟨removedPayloads, hr, h⟩ := Loading.result_bind_eq_ok.1 h
    obtain ⟨addedPayloads, ha, h⟩ := Loading.result_bind_eq_ok.1 h
    refine Loading.result_bind_eq_ok.2 ⟨_, hr, Loading.result_bind_eq_ok.2 ⟨_, ha, ?_⟩⟩
    -- the scores are the same under both thresholds
    generalize (CodeTable.numberAll removedPayloads).run .empty = removedNumbers at h ⊢
    obtain ⟨removedCodes, table⟩ := removedNumbers
    dsimp only at h ⊢
    generalize (CodeTable.numberAll addedPayloads).run table = addedNumbers at h ⊢
    obtain ⟨addedCodes, _⟩ := addedNumbers
    dsimp only at h ⊢
    split at h
    · simp at h
    · rename_i up
      obtain rfl := Except.ok.inj h
      rw [if_neg up]
      exact congrArg Except.ok (ScoredPair.assign_raise le _)

/-! ## What becomes of the pairs that are dropped -/

/-- The places of the changed chunks whose scores satisfy a condition. -/
def Account.scoring (a : Account) (d : Delta) (p : Nat → Bool) : List (Nat × Nat) :=
  ((a.changed.zip d.changed).filter fun x => p x.2.score).map (·.1)

/-- **What is no longer changed is free**, as every place is in one entry. -/
theorem free_perm {all common changed changed' free free' dropped : List Nat}
    (once : (common ++ changed ++ free).Perm all) (once' : (common ++ changed' ++ free').Perm all)
    (split : changed.Perm (changed' ++ dropped)) : free'.Perm (free ++ dropped) := by
  have same := once'.trans once.symm
  rw [List.append_assoc, List.append_assoc, List.perm_append_left_iff] at same
  have parts := same.trans (split.append_right free)
  rw [List.append_assoc, List.perm_append_left_iff] at parts
  exact parts.trans List.perm_append_comm

theorem perm_of_places {chunks cs ds es : List Chunk} {is js ks : List Nat} (split : is.Perm (js ++ ks))
    (all : is.map (chunks[·]?) = cs.map some) (front : js.map (chunks[·]?) = ds.map some)
    (back : ks.map (chunks[·]?) = es.map some) : cs.Perm (ds ++ es) := by
  have values := split.map (chunks[·]?)
  rw [List.map_append, all, front, back, ← List.map_append] at values
  exact (List.map_perm_map_iff (Option.some_injective Chunk)).1 values

/-- Whether a delta is another one, but for the changed chunks that score less
than `m`: their origins are removed and they are added, each at its place. -/
structure Raised (m : Nat) (old new : List Chunk) (d d' : Delta) (a a' : Account) : Prop where
  common : d'.common = d.common
  changed : d'.changed = d.changed.filter fun c => m ≤ c.score
  removed : d'.removed.Perm (d.removed ++ (d.changed.filter fun c => c.score < m).map (·.origin))
  added : d'.added.Perm (d.added ++ (d.changed.filter fun c => c.score < m).map (·.chunk))
  /-- Equal chunks are told apart by their places, which also tell the order. -/
  exact_before : a.Exact old new d
  exact_after : a'.Exact old new d'
  places_common : a'.common = a.common
  places_changed : a'.changed = a.scoring d (m ≤ ·)
  places_removed : a'.removed.Perm (a.removed ++ (a.scoring d (· < m)).map (·.1))
  places_added : a'.added.Perm (a.added ++ (a.scoring d (· < m)).map (·.2))

section

variable {ps : List ScoredPair} (matching : ScoredPair.Matching ps ((Leftover.of old new).filter Leftover.isText)
  ((Leftover.of new old).filter Leftover.isText))

theorem scoring_accountOf (p : Nat → Bool) : (accountOf old new ps).scoring (assemble old new ps) p =
    ((pairings ps (Leftover.of old new) (Leftover.of new old)).filter fun x => p x.2.1.score).map
      fun (c, _, e) => (c.index, e.index) := by
  simp only [Account.scoring, accountOf, assemble, changedBy_eq_map, List.zip_map', List.filter_map, List.map_map]
  rfl

include matching

theorem pairings_filter (keep : ScoredPair → Bool) :
    pairings (ps.filter keep) (Leftover.of old new) (Leftover.of new old) =
      (pairings ps (Leftover.of old new) (Leftover.of new old)).filter fun x => keep x.2.1 := by
  rw [pairings, pairings, List.filter_filterMap]
  refine List.filterMap_congr fun c _ => ?_
  have found : ((ps.filter keep).find? fun p => p.old == c.index) =
      (ps.find? fun p => p.old == c.index).filter keep := by
    have unique : ∀ p ∈ ps, ∀ q ∈ ps, (p.old == c.index) = true → (q.old == c.index) = true → p = q :=
      fun p hp q hq hc hc' => matching.old_unique hp hq ((beq_iff_eq.1 hc).trans (beq_iff_eq.1 hc').symm)
    ext p
    rw [Option.filter_eq_some_iff, find?_eq_some_iff_of_unique unique, find?_eq_some_iff_of_unique, List.mem_filter]
    · exact and_right_comm
    · exact fun p hp q hq => unique p (List.mem_filter.1 hp).1 q (List.mem_filter.1 hq).1
  rw [found]
  cases ps.find? fun p => p.old == c.index with
  | none => rfl
  | some p =>
    cases kept : keep p with
    | false =>
      rw [Option.filter_some_neg (by simp [kept]), Option.bind_some]
      cases (Leftover.of new old).find? fun d => d.index == p.new with
      | none => rfl
      | some e => exact (Option.filter_some_neg (by simp [kept])).symm
    | true =>
      rw [Option.filter_some_pos kept, Option.bind_some]
      cases (Leftover.of new old).find? fun d => d.index == p.new with
      | none => rfl
      | some e => exact (Option.filter_some_pos (p := fun x : Leftover × ScoredPair × Leftover => keep x.2.1) kept).symm

/-- The origins of some changed chunks stand at their places, and the chunks at theirs. -/
theorem getElem?_scoring (p : Nat → Bool) :
    (((accountOf old new ps).scoring (assemble old new ps) p).map (·.1)).map (old[·]?) =
        (((assemble old new ps).changed.filter fun c => p c.score).map (·.origin)).map some ∧
      (((accountOf old new ps).scoring (assemble old new ps) p).map (·.2)).map (new[·]?) =
        (((assemble old new ps).changed.filter fun c => p c.score).map (·.chunk)).map some := by
  rw [scoring_accountOf]
  simp only [assemble, changedBy_eq_map, List.filter_map, List.map_map]
  refine ⟨List.map_congr_left fun x mem => ?_, List.map_congr_left fun x mem => ?_⟩
  · obtain ⟨-, ⟨here, -⟩, -⟩ := (mem_pairings matching).1 (List.mem_filter.1 mem).1
    exact (Leftover.mem_of.1 here).1
  · obtain ⟨-, -, here, -⟩ := (mem_pairings matching).1 (List.mem_filter.1 mem).1
    exact (Leftover.mem_of.1 here).1

/-- **Without the pairs that score less than `m`** a delta is as before, but for the changes that they made. -/
theorem raised_assemble (m : Nat) :
    Raised m old new (assemble old new ps) (assemble old new (ps.filter fun p => m ≤ p.score)) (accountOf old new ps)
      (accountOf old new (ps.filter fun p => m ≤ p.score)) := by
  have before := exact_accountOf matching
  have after := exact_accountOf (matching.filter fun p => m ≤ p.score)
  have kept : (accountOf old new (ps.filter fun p => m ≤ p.score)).changed =
      (accountOf old new ps).scoring (assemble old new ps) (m ≤ ·) := by
    rw [scoring_accountOf, accountOf, pairings_filter matching]
  have parts : (accountOf old new ps).changed.Perm ((accountOf old new (ps.filter fun p => m ≤ p.score)).changed ++
      (accountOf old new ps).scoring (assemble old new ps) (· < m)) := by
    rw [kept, scoring_accountOf, scoring_accountOf, ← List.map_append]
    refine List.Perm.map _ ((List.filter_append_perm (fun x => m ≤ x.2.1.score) _).symm.trans (.of_eq ?_))
    simp only [Nat.not_le, ← decide_not]
  have oldParts := parts.map (·.1)
  have newParts := parts.map (·.2)
  rw [List.map_append] at oldParts newParts
  have removed := free_perm before.old_once after.old_once oldParts
  have added := free_perm before.new_once after.new_once newParts
  obtain ⟨origins, chunks⟩ := getElem?_scoring matching (· < m)
  refine ⟨rfl, ?_, perm_of_places removed after.removed before.removed origins,
    perm_of_places added after.added before.added chunks, before, after, rfl, kept, removed, added⟩
  simp only [assemble, changedBy_eq_map, pairings_filter matching, List.filter_map]
  rfl

end

/-- **Raising the threshold only drops pairs.** Whatever the sequences, the source
and the bonus, if a delta is computed then one is computed with a higher threshold
too: the same chunks are common, the changed ones are those that score enough, and
the others are taken apart into removed and added ones, at their places. -/
theorem compute_raised {d : Delta} (le : config.minScore ≤ m)
    (computed : (compute config source old new).result = .ok d) :
    ∃ d' a a', (compute { config with minScore := m } source old new).result = .ok d' ∧
      Raised m old new d d' a a' := by
  obtain ⟨ps, paired, made⟩ := Loading.result_bind_eq_ok.1 computed
  obtain rfl := Except.ok.inj made
  exact ⟨_, _, _, Loading.result_bind_eq_ok.2 ⟨_, pairs_raise le paired, rfl⟩, raised_assemble (pairs_matching paired) m⟩

/-- Two pairs, of which one is dropped, though each of its chunks would go with one of the other. -/
theorem compute_raised_partners :
    let text : UInt8 → Chunk := fun n => ⟨⟨["x"]⟩, .text ⟨0, none, none⟩ ⟨1, none, none⟩, ⟨.sha256, [n]⟩⟩
    let source : Source := fun c =>
      .ok (Bytes.ofText (if c.signature.digest.any (2 ≤ ·) then "ab cd ef" else "ab cd"))
    let config : DeltaConfig := ⟨2, 0, true⟩
    let old := [text 0, text 2]
    let new := [text 3, text 1]
    let d : Delta := ⟨[], [⟨text 0, text 1, 3⟩, ⟨text 2, text 3, 4⟩], [], []⟩
    config.minScore ≤ 4 ∧ (compute config source old new).result = .ok d ∧
      ∃ d' a a', (compute { config with minScore := 4 } source old new).result = .ok d' ∧
        Raised 4 old new d d' a a' := by
  intro text source config old new d
  have le : config.minScore ≤ 4 := by decide
  have computed : (compute config source old new).result = .ok d := by cbv
  exact ⟨le, computed, compute_raised le computed⟩

end Delta

end ContentChunks
