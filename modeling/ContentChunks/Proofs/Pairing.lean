/-
The pairs that a delta is made of. Whatever the payloads and the scores, the
pairs that are kept match some removed texts with some added ones, one to one
(`pairs_matching`): each pair tells the places of a removed and an added text,
and no place is in two pairs.
-/
import ContentChunks.Delta.Compute
import Mathlib.Data.List.Pairwise

namespace ContentChunks

namespace Loading

variable {α β : Type}

theorem result_bind_eq_ok {x : Loading α} {f : α → Loading β} {b : β} :
    (x >>= f).result = .ok b ↔ ∃ a, x.result = .ok a ∧ (f a).result = .ok b := by
  show (Loading.bind x f).result = .ok b ↔ _
  unfold Loading.bind
  split
  · rename_i e he
    simp [he]
  · rename_i a ha
    simp [ha]

@[simp] theorem result_pure (a : α) : (pure a : Loading α).result = .ok a := rfl

@[simp] theorem result_fail (e : Error) : (fail e : Loading α).result = .error e := rfl

end Loading

namespace ScoredPair

/-- Whether two pairs have no chunk in common. -/
def Apart (p q : ScoredPair) : Prop := p.old ≠ q.old ∧ p.new ≠ q.new

theorem Apart.symm {p q : ScoredPair} (h : p.Apart q) : q.Apart p := ⟨h.1.symm, h.2.symm⟩

instance : Std.Symm Apart := ⟨fun _ _ => Apart.symm⟩

theorem apart_of_not_meets {p q : ScoredPair} (h : ¬ p.meets q = true) : p.Apart q := by
  simpa [meets, Apart] using h

/-- Pairs are taken from those taken before and those at hand. -/
theorem mem_of_mem_takeFree {taken rest : List ScoredPair} {p : ScoredPair} (h : p ∈ takeFree taken rest) :
    p ∈ taken ∨ p ∈ rest := by
  induction rest generalizing taken with
  | nil => exact .inl (by simpa [takeFree] using h)
  | cons q rest ih =>
    unfold takeFree at h
    split at h
    · exact (ih h).imp_right (List.mem_cons_of_mem q)
    · rcases ih h with h | h
      · rcases List.mem_cons.1 h with rfl | h
        · exact .inr (by simp)
        · exact .inl h
      · exact .inr (List.mem_cons_of_mem q h)

theorem pairwise_takeFree {taken rest : List ScoredPair} (h : taken.Pairwise Apart) :
    (takeFree taken rest).Pairwise Apart := by
  induction rest generalizing taken with
  | nil => exact (List.pairwise_reverse.2 (h.imp Apart.symm))
  | cons p rest ih =>
    unfold takeFree
    split
    · exact ih h
    · rename_i free
      refine ih (List.pairwise_cons.2 ⟨fun q hq => apart_of_not_meets fun meets => free ?_, h⟩)
      exact List.any_eq_true.2 ⟨q, hq, meets⟩

theorem mem_of_mem_assign {minScore : Nat} {pairs : List ScoredPair} {p : ScoredPair}
    (h : p ∈ assign minScore pairs) : p ∈ pairs ∧ minScore ≤ p.score := by
  rcases mem_of_mem_takeFree h with h | h
  · simp at h
  · simpa using (sorted_perm _).mem_iff.1 h

theorem pairwise_assign (minScore : Nat) (pairs : List ScoredPair) : (assign minScore pairs).Pairwise Apart :=
  pairwise_takeFree .nil

/-- Pairs that match removed texts with added ones: each is of two of them, and
no two have a chunk in common. -/
structure Matching (pairs : List ScoredPair) (removed added : List Leftover) : Prop where
  old : ∀ p ∈ pairs, ∃ c ∈ removed, c.index = p.old
  new : ∀ p ∈ pairs, ∃ d ∈ added, d.index = p.new
  apart : pairs.Pairwise Apart

theorem Matching.old_unique {pairs : List ScoredPair} {removed added : List Leftover}
    (h : Matching pairs removed added) {p q : ScoredPair} (hp : p ∈ pairs) (hq : q ∈ pairs)
    (same : p.old = q.old) : p = q :=
  Classical.byContradiction fun ne => (h.apart.forall hp hq ne).1 same

theorem Matching.new_unique {pairs : List ScoredPair} {removed added : List Leftover}
    (h : Matching pairs removed added) {p q : ScoredPair} (hp : p ∈ pairs) (hq : q ∈ pairs)
    (same : p.new = q.new) : p = q :=
  Classical.byContradiction fun ne => (h.apart.forall hp hq ne).2 same

end ScoredPair

namespace Delta

theorem mem_scores {bonus : Nat} {old new : List Chunk} {removed added : List Leftover}
    {cs ds : List (List Nat)} {p : ScoredPair}
    (h : p ∈ scores bonus old new (removed.zip cs) (added.zip ds)) :
    (∃ c ∈ removed, c.index = p.old) ∧ ∃ d ∈ added, d.index = p.new := by
  simp only [scores, List.mem_flatMap, List.mem_map] at h
  obtain ⟨⟨c, x⟩, hc, ⟨d, y⟩, hd, rfl⟩ := h
  exact ⟨⟨c, (List.of_mem_zip hc).1, rfl⟩, ⟨d, (List.of_mem_zip hd).1, rfl⟩⟩

/-- **The pairs match removed texts with added ones**, whatever is loaded. -/
theorem pairs_matching {config : DeltaConfig} {flag : CancelFlag} {source : Source} {old new : List Chunk}
    {removed added : List Leftover} {ps : List ScoredPair}
    (h : (pairs config flag source old new removed added).result = .ok ps) :
    ScoredPair.Matching ps removed added := by
  unfold pairs at h
  split at h
  · obtain rfl : [] = ps := by simpa using h
    exact ⟨by simp, by simp, .nil⟩
  · simp only [Loading.result_bind_eq_ok] at h
    obtain ⟨removedPayloads, -, addedPayloads, -, h⟩ := h
    -- The numbers of the codes play no part.
    split at h
    split at h
    split at h
    · simp at h
    · obtain rfl := Except.ok.inj h
      refine ⟨fun p hp => ?_, fun p hp => ?_, ScoredPair.pairwise_assign ..⟩
      · exact (mem_scores (ScoredPair.mem_of_mem_assign hp).1).1
      · exact (mem_scores (ScoredPair.mem_of_mem_assign hp).1).2

end Delta

end ContentChunks
