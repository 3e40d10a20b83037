/-
Pairs that are picked one after the other: each time the best of those that score enough
and use no place that is used already, until there is none. Taking the free pairs from a
sorted row in one pass picks the same, so it does not matter in which order the pairs come,
nor how they are sorted.

Main statements:
- `Picks`: what is picked, step by step.
- `Picks.unique`, `picks_takeFree`: it is determined, and one pass over a sorted row finds it.
- `assign_picks`: so the pairs that are kept are those that are picked, in whichever order they are given.
-/
import ContentChunks.Proofs.Greedy

namespace ContentChunks.ScoredPair

variable {minScore : Nat} {pairs picked ms ns : List ScoredPair} {p q : ScoredPair}

/-- Whether a pair uses no place that is used by those that are picked. -/
def Unused (picked : List ScoredPair) (p : ScoredPair) : Prop := ∀ q ∈ picked, p.Apart q

/-- Whether a pair is the next to pick: of those that score enough and use no place that is
used, the one with the highest score; of several the one with the lowest old place, then
the one with the lowest new place. -/
structure IsNext (minScore : Nat) (pairs picked : List ScoredPair) (p : ScoredPair) : Prop where
  mem : p ∈ pairs
  enough : minScore ≤ p.score
  unused : Unused picked p
  best : ∀ q ∈ pairs, minScore ≤ q.score → Unused picked q →
    q.score < p.score ∨ q.score = p.score ∧ (p.old < q.old ∨ p.old = q.old ∧ p.new ≤ q.new)

/-- What is picked when some pairs are picked already, the last of them first. -/
inductive Picks (minScore : Nat) (pairs : List ScoredPair) : List ScoredPair → List ScoredPair → Prop where
  | stop {picked : List ScoredPair} : (∀ p ∈ pairs, minScore ≤ p.score → ¬Unused picked p) →
      Picks minScore pairs picked []
  | pick {picked rest : List ScoredPair} {p : ScoredPair} : IsNext minScore pairs picked p →
      Picks minScore pairs (p :: picked) rest → Picks minScore pairs picked (p :: rest)

theorem IsNext.unique (h : IsNext minScore pairs picked p) (h' : IsNext minScore pairs picked q) : p = q := by
  have before := h.best q h'.mem h'.enough h'.unused
  have after := h'.best p h.mem h.enough h.unused
  obtain ⟨_, _, _⟩ := p
  obtain ⟨_, _, _⟩ := q
  simp only [mk.injEq] at *
  omega

/-- **What is picked is determined** by the pairs that there are. -/
theorem Picks.unique (h : Picks minScore pairs picked ms) (h' : Picks minScore pairs picked ns) : ms = ns := by
  induction h generalizing ns with
  | stop nothing =>
    cases h' with
    | stop => rfl
    | pick next => exact absurd next.unused (nothing _ next.mem next.enough)
  | pick next _ ih =>
    cases h' with
    | stop nothing => exact absurd next.unused (nothing _ next.mem next.enough)
    | pick next' rest' =>
      obtain rfl := next.unique next'
      rw [ih rest']

theorem unused_iff : Unused picked p ↔ ¬picked.any p.meets = true := by
  simp [Unused, Apart, meets]

/-- Whether a sorted row has all that may still be picked, and nothing that scores too little. -/
structure Remaining (minScore : Nat) (pairs picked row : List ScoredPair) : Prop where
  sorted : row.Pairwise fun p q => (compare p q).isLE = true
  sound : ∀ p ∈ row, p ∈ pairs ∧ minScore ≤ p.score
  complete : ∀ p ∈ pairs, minScore ≤ p.score → Unused picked p → p ∈ row

theorem Remaining.skip {row : List ScoredPair} (h : Remaining minScore pairs picked (p :: row))
    (used : ¬Unused picked p) : Remaining minScore pairs picked row where
  sorted := (List.pairwise_cons.1 h.sorted).2
  sound q mem := h.sound q (List.mem_cons_of_mem p mem)
  complete q mem enough unused :=
    (List.mem_cons.1 (h.complete q mem enough unused)).resolve_left fun same => used (same ▸ unused)

theorem Remaining.isNext {row : List ScoredPair} (h : Remaining minScore pairs picked (p :: row))
    (unused : Unused picked p) : IsNext minScore pairs picked p where
  mem := (h.sound p List.mem_cons_self).1
  enough := (h.sound p List.mem_cons_self).2
  unused := unused
  best q mem enough free := by
    obtain rfl | later := List.mem_cons.1 (h.complete q mem enough free)
    · omega
    · have le := isLE_compare_iff.1 ((List.pairwise_cons.1 h.sorted).1 q later)
      omega

theorem Remaining.take {row : List ScoredPair} (h : Remaining minScore pairs picked (p :: row)) :
    Remaining minScore pairs (p :: picked) row where
  sorted := (List.pairwise_cons.1 h.sorted).2
  sound q mem := h.sound q (List.mem_cons_of_mem p mem)
  complete q mem enough unused := by
    have left := h.complete q mem enough fun r hr => unused r (List.mem_cons_of_mem p hr)
    refine (List.mem_cons.1 left).resolve_left fun same => ?_
    exact (unused p List.mem_cons_self).1 (by rw [same])

/-- **One pass over a sorted row picks the same**: each pair that is passed over could not have been picked. -/
theorem picks_takeFree {row : List ScoredPair} (h : Remaining minScore pairs picked row) :
    ∃ more, takeFree picked row = picked.reverse ++ more ∧ Picks minScore pairs picked more := by
  induction row generalizing picked with
  | nil =>
    refine ⟨[], by simp [takeFree], .stop fun p mem enough unused => ?_⟩
    exact List.not_mem_nil (h.complete p mem enough unused)
  | cons p row ih =>
    unfold takeFree
    split
    · rename_i used
      exact ih (h.skip fun unused => unused_iff.1 unused used)
    · rename_i free
      obtain ⟨more, taken, picks⟩ := ih h.take
      exact ⟨p :: more, by simp [taken], .pick (h.isNext (unused_iff.2 free)) picks⟩

/-- **The pairs that are kept are those that are picked** one after the other: the best of
all that score enough and use no place that is used, until there is none. Any sorted row
of the pairs that score enough gives them, however it was sorted, and so do the pairs in
any other order. -/
theorem assign_picks (minScore : Nat) (pairs : List ScoredPair) :
    (∀ picked, Picks minScore pairs [] picked ↔ picked = assign minScore pairs) ∧
      (∀ row, row.Perm (pairs.filter fun p => minScore ≤ p.score) →
        (row.Pairwise fun p q => (compare p q).isLE = true) → takeFree [] row = assign minScore pairs) ∧
      ∀ others, others.Perm pairs → assign minScore others = assign minScore pairs := by
  have picks : Picks minScore pairs [] (assign minScore pairs) := by
    have remaining : Remaining minScore pairs [] (ContentChunks.sorted (pairs.filter fun p => minScore ≤ p.score)) := by
      refine ⟨pairwise_sorted _, fun p mem => ?_, fun p mem enough _ => ?_⟩
      · simpa using (sorted_perm _).mem_iff.1 mem
      · exact (sorted_perm _).mem_iff.2 (by simpa using ⟨mem, enough⟩)
    obtain ⟨more, taken, picks⟩ := picks_takeFree remaining
    rw [assign, taken]
    exact picks
  refine ⟨fun picked => ⟨fun other => other.unique picks, fun same => same ▸ picks⟩, fun row perm inOrder => ?_,
    fun others perm => ?_⟩
  · rw [assign, eq_sorted_of_perm perm inOrder]
  · rw [assign, assign, ← eq_sorted_of_perm ((sorted_perm _).trans (perm.filter _)) (pairwise_sorted _)]

/-- The best pair takes a place of each of the two that come after it. -/
example : assign 2 [⟨3, 0, 0⟩, ⟨4, 1, 1⟩, ⟨5, 0, 1⟩, ⟨2, 1, 0⟩] = [⟨5, 0, 1⟩, ⟨2, 1, 0⟩] := by cbv

end ContentChunks.ScoredPair
