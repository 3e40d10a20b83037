/-
The changed chunks of a delta are the greedy matching of the texts that are left
over: there is just one matching in which every pair scores enough and every
good pair that is missing lost a chunk to a better one, and it is the one that
is computed.

Main statements:
- `Greedy.unique`: there is one greedy matching at most.
- `greedy_assign`: taking the free pairs from the best downwards gives it.
- `scored_of_pairs`: the pairs that are taken from are all pairs of texts, with
  the scores that their payloads and neighbours call for.
- `changed_greedy`: so the changed chunks are the greedy matching.
-/
import ContentChunks.Proofs.Accounting
import ContentChunks.Proofs.Numbering
import Mathlib

namespace ContentChunks

/-! ## Greedy matchings -/

/-- Whether a pair of places comes before another one: it scores more, or as much
and its old place is smaller, or that is the same and its new place is smaller. -/
def Before (score : Nat → Nat → Nat) (p q : Nat × Nat) : Prop :=
  score q.1 q.2 < score p.1 p.2 ∨
    score p.1 p.2 = score q.1 q.2 ∧ (p.1 < q.1 ∨ p.1 = q.1 ∧ p.2 < q.2)

/-- Whether some pairs of places are matched greedily: no place is used twice,
each pair is of two candidates and scores enough, and a pair of candidates that
scores enough and is missing shares a place with a pair that comes before it. -/
structure Greedy (score : Nat → Nat → Nat) (minScore : Nat) (olds news : Nat → Prop)
    (pairs : Set (Nat × Nat)) : Prop where
  candidates : ∀ p ∈ pairs, olds p.1 ∧ news p.2
  once : ∀ p ∈ pairs, ∀ q ∈ pairs, p.1 = q.1 ∨ p.2 = q.2 → p = q
  enough : ∀ p ∈ pairs, minScore ≤ score p.1 p.2
  beaten : ∀ p : Nat × Nat, olds p.1 → news p.2 → minScore ≤ score p.1 p.2 → p ∉ pairs →
    ∃ q ∈ pairs, (q.1 = p.1 ∨ q.2 = p.2) ∧ Before score q p

namespace Greedy

variable {score : Nat → Nat → Nat} {minScore limit : Nat} {olds news : Nat → Prop} {M N : Set (Nat × Nat)}

/-- Only finitely many scores are above a score, so what comes before a pair can be followed to an end. -/
theorem wf_before (bounded : ∀ i j, score i j ≤ limit) : WellFounded (Before score) := by
  let rank (p : Nat × Nat) : Nat × Nat × Nat := (limit - score p.1 p.2, p)
  refine Subrelation.wf ?_ (InvImage.wf rank
    (Prod.lex ⟨_, wellFounded_lt⟩ (Prod.lex ⟨_, wellFounded_lt⟩ ⟨_, wellFounded_lt⟩)).wf)
  intro p q before
  have hp := bounded p.1 p.2
  have hq := bounded q.1 q.2
  show Prod.Lex (· < ·) (Prod.Lex (· < ·) (· < ·)) (rank p) (rank q)
  rw [Prod.lex_def, Prod.lex_def]
  unfold Before at before
  simp only [rank]
  omega

theorem not_before_self (p : Nat × Nat) : ¬Before score p p := by
  unfold Before
  omega

/-- A pair of one greedy matching is in any other, if those before it that are in either are in both. -/
theorem mem_of_mem (hM : Greedy score minScore olds news M) (hN : Greedy score minScore olds news N) {p : Nat × Nat}
    (earlier : ∀ q, Before score q p → (q ∈ M ↔ q ∈ N)) (hp : p ∈ M) : p ∈ N := by
  by_cases hn : p ∈ N
  · exact hn
  · obtain ⟨isOld, isNew⟩ := hM.candidates p hp
    obtain ⟨q, hq, shared, before⟩ := hN.beaten p isOld isNew (hM.enough p hp) hn
    -- the pair that keeps `p` out of `N` would be in `M` beside it
    have same := hM.once q ((earlier q before).2 hq) p hp shared
    rw [same] at before
    exact absurd before (not_before_self p)

/-- **There is one greedy matching at most.** -/
theorem unique (bounded : ∀ i j, score i j ≤ limit) (hM : Greedy score minScore olds news M)
    (hN : Greedy score minScore olds news N) : M = N := by
  ext p
  induction p using (wf_before bounded).induction with
  | h p earlier =>
    exact ⟨mem_of_mem hM hN earlier, mem_of_mem hN hM fun q before => (earlier q before).symm⟩

end Greedy

/-! ## Taking pairs in turn -/

namespace ScoredPair

theorem isLE_compare_iff {p q : ScoredPair} :
    (compare p q).isLE = true ↔
      q.score < p.score ∨ q.score = p.score ∧ (p.old < q.old ∨ p.old = q.old ∧ p.new ≤ q.new) := by
  have same : compare p q = (compare q.score p.score).then ((compare p.old q.old).then (compare p.new q.new)) := rfl
  rw [same, Ordering.isLE_then_iff_or, Ordering.isLE_then_iff_or, Nat.compare_eq_lt, Nat.compare_eq_eq,
    Nat.compare_eq_lt, Nat.compare_eq_eq, Nat.isLE_compare]

theorem pairwise_sorted (pairs : List ScoredPair) :
    (sorted pairs).Pairwise fun p q => (compare p q).isLE = true := by
  refine List.pairwise_mergeSort (fun p q r => ?_) (fun p q => ?_) pairs
  · rw [isLE_compare_iff, isLE_compare_iff, isLE_compare_iff]
    omega
  · rw [Bool.or_eq_true, isLE_compare_iff, isLE_compare_iff]
    omega

/-- There is one way only to sort pairs, since no two are equally good. -/
theorem eq_sorted_of_perm {row pairs : List ScoredPair} (perm : row.Perm pairs)
    (inOrder : row.Pairwise fun p q => (compare p q).isLE = true) : row = sorted pairs := by
  refine (perm.trans (sorted_perm pairs).symm).eq_of_pairwise ?_ inOrder (pairwise_sorted pairs)
  intro p q _ _ le ge
  rw [isLE_compare_iff] at le ge
  obtain ⟨_, _, _⟩ := p
  obtain ⟨_, _, _⟩ := q
  simp only [mk.injEq] at le ge ⊢
  omega

theorem mem_takeFree_of_mem {taken : List ScoredPair} (rest : List ScoredPair) {p : ScoredPair} (h : p ∈ taken) :
    p ∈ takeFree taken rest := by
  induction rest generalizing taken with
  | nil => simpa [takeFree] using h
  | cons q rest ih =>
    unfold takeFree
    split
    · exact ih h
    · exact ih (List.mem_cons_of_mem q h)

/-- **A pair that is not taken meets one that is**, and that one is no worse. -/
theorem mem_takeFree_or_meets {taken rest : List ScoredPair}
    (best : ∀ q ∈ taken, ∀ p ∈ rest, (compare q p).isLE = true)
    (sorted : rest.Pairwise fun p q => (compare p q).isLE = true) {p : ScoredPair} (hp : p ∈ rest) :
    p ∈ takeFree taken rest ∨ ∃ q ∈ takeFree taken rest, p.meets q = true ∧ (compare q p).isLE = true := by
  induction rest generalizing taken with
  | nil => cases hp
  | cons first rest ih =>
    obtain ⟨least, sorted⟩ := List.pairwise_cons.1 sorted
    unfold takeFree
    by_cases met : taken.any first.meets = true
    · rw [if_pos met]
      cases List.mem_cons.1 hp with
      | inl here =>
        obtain ⟨q, hq, meets⟩ := List.any_eq_true.1 met
        exact .inr ⟨q, mem_takeFree_of_mem rest hq, here ▸ meets, best q hq p hp⟩
      | inr there => exact ih (fun q hq x hx => best q hq x (by simp [hx])) sorted there
    · rw [if_neg met]
      cases List.mem_cons.1 hp with
      | inl here => exact .inl (mem_takeFree_of_mem rest (by simp [here]))
      | inr there =>
        refine ih (fun q hq x hx => ?_) sorted there
        cases List.mem_cons.1 hq with
        | inl here => exact here ▸ least x hx
        | inr there => exact best q there x (by simp [hx])

/-- The places of some pairs. -/
def places (pairs : List ScoredPair) : Set (Nat × Nat) := {x | ∃ p ∈ pairs, (p.old, p.new) = x}

/-- **Taking the free pairs from the best downwards** matches greedily, if they
are all the pairs of candidates with their scores. -/
theorem greedy_assign {score : Nat → Nat → Nat} {olds news : Nat → Prop} {scored : List ScoredPair}
    (all : ∀ p, p ∈ scored ↔ olds p.old ∧ news p.new ∧ p.score = score p.old p.new) (minScore : Nat) :
    Greedy score minScore olds news (places (assign minScore scored)) where
  candidates := by
    intro x hx
    obtain ⟨p, hp, rfl⟩ := hx
    obtain ⟨isOld, isNew, -⟩ := (all p).1 (mem_of_mem_assign hp).1
    exact ⟨isOld, isNew⟩
  once := by
    intro x hx y hy shared
    obtain ⟨p, hp, rfl⟩ := hx
    obtain ⟨q, hq, rfl⟩ := hy
    by_cases same : p = q
    · rw [same]
    · have apart := (pairwise_assign minScore scored).forall hp hq same
      cases shared with
      | inl old => exact absurd old apart.1
      | inr new => exact absurd new apart.2
  enough := by
    intro x hx
    obtain ⟨p, hp, rfl⟩ := hx
    obtain ⟨mem, enough⟩ := mem_of_mem_assign hp
    obtain ⟨-, -, same⟩ := (all p).1 mem
    rwa [same] at enough
  beaten := by
    intro x isOld isNew enough missing
    let p : ScoredPair := ⟨score x.1 x.2, x.1, x.2⟩
    have listed : p ∈ sorted (scored.filter fun q => minScore ≤ q.score) := by
      rw [(sorted_perm _).mem_iff, List.mem_filter]
      exact ⟨(all p).2 ⟨isOld, isNew, rfl⟩, by simpa using enough⟩
    have nothingTaken : ∀ q ∈ ([] : List ScoredPair), ∀ r ∈ sorted (scored.filter fun q => minScore ≤ q.score),
        (compare q r).isLE = true := by simp
    cases mem_takeFree_or_meets nothingTaken (pairwise_sorted _) listed with
    | inl taken => exact absurd ⟨p, taken, rfl⟩ missing
    | inr met =>
      obtain ⟨q, hq, meets, better⟩ := met
      have known : q.score = score q.old q.new := ((all q).1 (mem_of_mem_assign hq).1).2.2
      have shared : q.old = x.1 ∨ q.new = x.2 := by
        simp only [ScoredPair.meets, p, Bool.or_eq_true, beq_iff_eq] at meets
        omega
      refine ⟨(q.old, q.new), ⟨q, hq, rfl⟩, shared, ?_⟩
      -- a pair that is as good would be the missing one
      have other : ¬(q.old = x.1 ∧ q.new = x.2) := fun same => missing ⟨q, hq, Prod.ext same.1 same.2⟩
      rw [isLE_compare_iff, known] at better
      simp only [p] at better
      show score x.1 x.2 < score q.old q.new ∨
        score q.old q.new = score x.1 x.2 ∧ (q.old < x.1 ∨ q.old = x.1 ∧ q.new < x.2)
      omega

end ScoredPair

/-! ## Scores -/

namespace Loading

variable {α β γ : Type}

theorem bind_pure_map (f : α → β) (x : Loading α) : (Loading.bind x fun a => Loading.pure (f a)) =
    ⟨x.loads, x.result.map f⟩ := by
  unfold Loading.bind
  split
  · rename_i e he
    rw [he]
    rfl
  · rename_i a ha
    rw [ha]
    simp [Loading.pure, Except.map]

theorem bind_assoc (x : Loading α) (f : α → Loading β) (g : β → Loading γ) :
    Loading.bind (Loading.bind x f) g = Loading.bind x fun a => Loading.bind (f a) g := by
  unfold Loading.bind
  cases hx : x.result with
  | error e => rfl
  | ok a =>
    cases hf : (f a).result with
    | error e => simp [hf]
    | ok b => simp [hf]

instance : LawfulMonad Loading :=
  LawfulMonad.mk' Loading
    (fun x => by
      show (Loading.bind x fun a => Loading.pure (id a)) = x
      rw [bind_pure_map]
      cases x with
      | mk loads result => cases result <;> rfl)
    (fun a f => by
      show Loading.bind (Loading.pure a) f = f a
      simp [Loading.bind, Loading.pure])
    bind_assoc

/-- The payload that a source has for a chunk, if it has one. -/
def payload (source : Source) (c : Chunk) : Bytes := ((source c).toOption).getD []

theorem forall₂_of_mapM {f : α → Loading β} {items : List α} {results : List β}
    (done : (items.mapM f).result = .ok results) : List.Forall₂ (fun x y => (f x).result = .ok y) items results := by
  induction items generalizing results with
  | nil =>
    obtain rfl : [] = results := Except.ok.inj done
    exact .nil
  | cons x rest ih =>
    rw [List.mapM_cons] at done
    obtain ⟨first, loaded, done⟩ := result_bind_eq_ok.1 done
    obtain ⟨more, loadedMore, done⟩ := result_bind_eq_ok.1 done
    obtain rfl : first :: more = results := Except.ok.inj done
    exact .cons loaded (ih loadedMore)

theorem result_mapM_load {source : Source} {cs : List Leftover} {payloads : List Bytes}
    (h : (cs.mapM fun c => load source c.chunk).result = .ok payloads) :
    (∀ c ∈ cs, source c.chunk = .ok (payload source c.chunk)) ∧
      payloads = cs.map fun c => payload source c.chunk := by
  have each := forall₂_of_mapM h
  clear h
  induction each with
  | nil => exact ⟨by simp, rfl⟩
  | @cons c x cs xs known _ ih =>
    obtain ⟨all, rfl⟩ := ih
    have known : source c.chunk = .ok x := known
    have same : payload source c.chunk = x := by
      rw [payload, known]
      rfl
    rw [List.map_cons, same]
    exact ⟨List.forall_mem_cons.2 ⟨same ▸ known, all⟩, rfl⟩

end Loading

namespace Delta

/-- On how many sides the chunks next to two places have the same signature. -/
def agreeingSides (old new : List Chunk) (i j : Nat) : Nat :=
  (0 < i && 0 < j && sameNeighbour old[i - 1]? new[j - 1]?).toNat + (sameNeighbour old[i + 1]? new[j + 1]?).toNat

/-- What two payloads and the neighbours of their chunks score: the similarity of
the codes of their words, and the bonus for each side that agrees. -/
def scoreOf (bonus : Nat) (x y : Bytes) (sides : Nat) : Nat :=
  min Matching.scoreLimit (Matching.similarity (codesOf x) (codesOf y) + bonus * sides)

/-- The score of an old and a new place. -/
def pairScore (config : DeltaConfig) (source : Source) (old new : List Chunk) (i j : Nat) : Nat :=
  match old[i]?, new[j]? with
  | some c, some d =>
    scoreOf config.adjacencyBonus (Loading.payload source c) (Loading.payload source d) (agreeingSides old new i j)
  | _, _ => 0

/-- Whether the chunk at a place is a text whose signature the other sequence lacks. -/
def Candidate (chunks other : List Chunk) (i : Nat) : Prop :=
  ∃ c, chunks[i]? = some c ∧ c.range.isText = true ∧ ∀ d ∈ other, d.signature ≠ c.signature

theorem pairScore_le (config : DeltaConfig) (source : Source) (old new : List Chunk) (i j : Nat) :
    pairScore config source old new i j ≤ Matching.scoreLimit := by
  unfold pairScore
  split
  · exact Nat.min_le_left ..
  · exact Nat.zero_le _

theorem sharedNeighbours_at {old new : List Chunk} {i j : Nat} (hi : i < old.length) (hj : j < new.length) :
    sharedNeighbours (Chunk.Context.at old i) (Chunk.Context.at new j) = agreeingSides old new i j := by
  unfold sharedNeighbours agreeingSides Chunk.Context.at
  rw [if_pos hi, if_pos hj]
  cases i with
  | zero => rfl
  | succ i =>
    cases j with
    | zero => cases h : old[i]? <;> simp [sameNeighbour, h]
    | succ j => simp

/-- Two loaded chunks score what their places do, whichever numbers stand for
their codes. The bonus is kept below the limit before it is added, which makes
no difference. -/
theorem score_numbersOf {config : DeltaConfig} {source : Source} {old new : List Chunk} {c d : Leftover}
    (hc : old[c.index]? = some c.chunk) (hd : new[d.index]? = some d.chunk) {t u : CodeTable}
    (more : t.Extends u) (has : t.Has (Loading.payload source c.chunk)) :
    score config.adjacencyBonus old new c d (t.numbersOf (Loading.payload source c.chunk))
        (u.numbersOf (Loading.payload source d.chunk)) =
      pairScore config source old new c.index d.index := by
  obtain ⟨hi, -⟩ := List.getElem?_eq_some_iff.1 hc
  obtain ⟨hj, -⟩ := List.getElem?_eq_some_iff.1 hd
  obtain ⟨stillHas, same⟩ := more.numbersOf has
  unfold score pairScore
  rw [hc, hd, sharedNeighbours_at hi hj, ← same, CodeTable.similarity_numbersOf stillHas]
  dsimp only [scoreOf]
  omega

theorem mem_texts {chunks other : List Chunk} {c : Leftover} :
    c ∈ (Leftover.of chunks other).filter Leftover.isText ↔
      chunks[c.index]? = some c.chunk ∧ Candidate chunks other c.index := by
  rw [List.mem_filter, Leftover.mem_of]
  constructor
  · intro both
    obtain ⟨⟨here, lack⟩, text⟩ := both
    exact ⟨here, c.chunk, here, by simpa [Leftover.isText, Chunk.isBinary] using text, lack⟩
  · intro both
    obtain ⟨here, d, there, text, lack⟩ := both
    rw [here, Option.some.injEq] at there
    subst there
    exact ⟨⟨here, lack⟩, by simpa [Leftover.isText, Chunk.isBinary] using text⟩

theorem zip_map_self {α β : Type} (items : List α) (f : α → β) :
    items.zip (items.map f) = items.map fun x => (x, f x) := by
  have zipped : (items.map id).zip (items.map f) = items.map fun x => (id x, f x) := List.zip_map' ..
  rwa [List.map_id] at zipped

theorem mem_scores_zip {bonus : Nat} {old new : List Chunk} {removed added : List Leftover}
    {f g : Leftover → List Nat} {p : ScoredPair} :
    p ∈ scores bonus old new (removed.zip (removed.map f)) (added.zip (added.map g)) ↔
      ∃ c ∈ removed, ∃ d ∈ added, ⟨score bonus old new c d (f c) (g d), c.index, d.index⟩ = p := by
  simp only [scores, zip_map_self, List.flatMap_map, List.map_map, List.mem_flatMap, List.mem_map, Function.comp_apply]

section

variable {config : DeltaConfig} {flag : CancelFlag} {source : Source} {old new : List Chunk} {ps : List ScoredPair}

/-- **The pairs are taken from all pairs of candidates**, each of which could be
loaded, with the scores that their payloads and neighbours call for. -/
theorem scored_of_pairs
    (h : (pairs config flag source old new ((Leftover.of old new).filter Leftover.isText)
      ((Leftover.of new old).filter Leftover.isText)).result = .ok ps) :
    (∀ i j c d, Candidate old new i → Candidate new old j → old[i]? = some c → new[j]? = some d →
      source c = .ok (Loading.payload source c) ∧ source d = .ok (Loading.payload source d)) ∧
    ∃ scored, ps = ScoredPair.assign config.minScore scored ∧
      ∀ p, p ∈ scored ↔ Candidate old new p.old ∧ Candidate new old p.new ∧
        p.score = pairScore config source old new p.old p.new := by
  have texts {chunks other : List Chunk} {i : Nat} {c : Chunk} (known : Candidate chunks other i)
      (here : chunks[i]? = some c) : ⟨i, c⟩ ∈ (Leftover.of chunks other).filter Leftover.isText :=
    mem_texts.2 ⟨here, known⟩
  unfold pairs at h
  split at h
  · -- on one side there is no candidate, so there is no pair of them
    rename_i empty
    obtain rfl : [] = ps := Except.ok.inj h
    have noPair (i j : Nat) (isOld : Candidate old new i) (isNew : Candidate new old j) : False := by
      obtain ⟨c, hc, -⟩ := id isOld
      obtain ⟨d, hd, -⟩ := id isNew
      rw [Bool.or_eq_true, List.isEmpty_iff, List.isEmpty_iff] at empty
      cases empty with
      | inl empty => exact List.not_mem_nil (empty ▸ texts isOld hc)
      | inr empty => exact List.not_mem_nil (empty ▸ texts isNew hd)
    refine ⟨fun i j _ _ isOld isNew => (noPair i j isOld isNew).elim, [], ?_, fun p => ?_⟩
    · simp [ScoredPair.assign, sorted, ScoredPair.takeFree]
    · simpa using fun isOld isNew => (noPair p.old p.new isOld isNew).elim
  · obtain ⟨removedPayloads, hr, h⟩ := Loading.result_bind_eq_ok.1 h
    obtain ⟨addedPayloads, ha, h⟩ := Loading.result_bind_eq_ok.1 h
    obtain ⟨loadedOld, rfl⟩ := Loading.result_mapM_load hr
    obtain ⟨loadedNew, rfl⟩ := Loading.result_mapM_load ha
    refine ⟨fun i j c d isOld isNew hc hd => ⟨loadedOld _ (texts isOld hc), loadedNew _ (texts isNew hd)⟩, ?_⟩
    split at h
    rename_i removedCodes t numberedOld
    split at h
    rename_i addedCodes u numberedNew
    split at h
    · simp at h
    · obtain rfl := Except.ok.inj h
      obtain ⟨-, has, rfl⟩ := CodeTable.numbersOf_of_numberAll numberedOld
      obtain ⟨more, -, rfl⟩ := CodeTable.numbersOf_of_numberAll numberedNew
      have known {c d : Leftover} (hc : c ∈ (Leftover.of old new).filter Leftover.isText)
          (hd : d ∈ (Leftover.of new old).filter Leftover.isText) :
          score config.adjacencyBonus old new c d (t.numbersOf (Loading.payload source c.chunk))
            (u.numbersOf (Loading.payload source d.chunk)) = pairScore config source old new c.index d.index :=
        score_numbersOf (mem_texts.1 hc).1 (mem_texts.1 hd).1 more (has _ (List.mem_map_of_mem hc))
      refine ⟨_, rfl, fun p => ?_⟩
      rw [List.map_map, List.map_map, mem_scores_zip]
      constructor
      · intro listed
        obtain ⟨c, hc, d, hd, rfl⟩ := listed
        exact ⟨(mem_texts.1 hc).2, (mem_texts.1 hd).2, known hc hd⟩
      · intro both
        obtain ⟨isOld, isNew, same⟩ := both
        obtain ⟨c, hc, -⟩ := id isOld
        obtain ⟨d, hd, -⟩ := id isNew
        refine ⟨⟨p.old, c⟩, texts isOld hc, ⟨p.new, d⟩, texts isNew hd, ?_⟩
        rw [Function.comp_apply, Function.comp_apply, known (texts isOld hc) (texts isNew hd), ← same]

theorem mem_changed {pairs : List ScoredPair}
    (h : ScoredPair.Matching pairs ((Leftover.of old new).filter Leftover.isText)
      ((Leftover.of new old).filter Leftover.isText)) (x : Nat × Nat) :
    x ∈ (accountOf old new pairs).changed ↔ x ∈ ScoredPair.places pairs := by
  simp only [accountOf, List.mem_map]
  constructor
  · intro paired
    obtain ⟨⟨c, p, d⟩, hm, rfl⟩ := paired
    obtain ⟨hp, ⟨-, ic⟩, -, id⟩ := (mem_pairings h).1 hm
    exact ⟨p, hp, by rw [ic, id]⟩
  · intro listed
    obtain ⟨p, hp, rfl⟩ := listed
    obtain ⟨c, d, hm⟩ := exists_pairing h hp
    obtain ⟨-, ⟨-, ic⟩, -, id⟩ := (mem_pairings h).1 hm
    exact ⟨(c, p, d), hm, by rw [ic, id]⟩

theorem score_changedBy
    (h : ScoredPair.Matching ps ((Leftover.of old new).filter Leftover.isText)
      ((Leftover.of new old).filter Leftover.isText))
    (known : ∀ p ∈ ps, p.score = pairScore config source old new p.old p.new) :
    (assemble old new ps).changed.map (·.score) =
      (accountOf old new ps).changed.map fun x => pairScore config source old new x.1 x.2 := by
  simp only [assemble, accountOf, changedBy_eq_map, List.map_map]
  refine List.map_congr_left fun x hm => ?_
  obtain ⟨c, p, d⟩ := x
  obtain ⟨hp, ⟨-, ic⟩, -, id⟩ := (mem_pairings h).1 hm
  show p.score = pairScore config source old new c.index d.index
  rw [known p hp, ic, id]

/-- **The changed chunks are the greedy matching.** Whatever the sequences, the
configuration and the source, if a delta is computed then every candidate was
loaded, unless the other side has none; the places of the changed chunks are the
one greedy matching of the candidates, and each is recorded with its score; and
no candidates that score enough are left on both sides. -/
theorem changed_greedy {d : Delta} (h : (compute config source old new).result = .ok d) :
    (∀ i j c e, Candidate old new i → Candidate new old j → old[i]? = some c → new[j]? = some e →
      source c = .ok (Loading.payload source c) ∧ source e = .ok (Loading.payload source e)) ∧
    ∃ a : Account, a.Exact old new d ∧
      d.changed.map (·.score) = a.changed.map (fun x => pairScore config source old new x.1 x.2) ∧
      (∀ M : Set (Nat × Nat), Greedy (pairScore config source old new) config.minScore (Candidate old new)
        (Candidate new old) M ↔ M = {x | x ∈ a.changed}) ∧
      ∀ i ∈ a.removed, ∀ j ∈ a.added, Candidate old new i → Candidate new old j →
        pairScore config source old new i j < config.minScore := by
  obtain ⟨ps, hp, hd⟩ := Loading.result_bind_eq_ok.1 h
  obtain rfl : assemble old new ps = d := Except.ok.inj hd
  have matching := pairs_matching hp
  have exact := exact_accountOf matching
  obtain ⟨loaded, scored, assigned, all⟩ := scored_of_pairs hp
  have greedy : Greedy (pairScore config source old new) config.minScore (Candidate old new) (Candidate new old)
      {x | x ∈ (accountOf old new ps).changed} := by
    have same : {x | x ∈ (accountOf old new ps).changed} = ScoredPair.places ps := Set.ext (mem_changed matching)
    rw [same, assigned]
    exact ScoredPair.greedy_assign all config.minScore
  refine ⟨loaded, accountOf old new ps, exact, score_changedBy matching fun p listed => ?_, fun M => ⟨fun other => ?_,
    fun same => same ▸ greedy⟩, fun i hi j hj isOld isNew => ?_⟩
  · rw [assigned] at listed
    exact ((all p).1 (ScoredPair.mem_of_mem_assign listed).1).2.2
  · exact other.unique (pairScore_le config source old new) greedy
  · -- a pair that scores enough would meet a changed one, whose places are not left
    by_contra enough
    have once := exact.old_once.nodup_iff.2 List.nodup_range
    have once' := exact.new_once.nodup_iff.2 List.nodup_range
    have free : ∀ x ∈ (accountOf old new ps).changed, x.1 ≠ i ∧ x.2 ≠ j := by
      intro x hx
      have left := (List.nodup_append.1 once).2.2 x.1 (by simp [List.mem_map_of_mem hx]) i hi
      have right := (List.nodup_append.1 once').2.2 x.2 (by simp [List.mem_map_of_mem hx]) j hj
      exact ⟨left, right⟩
    obtain ⟨q, hq, shared, -⟩ := greedy.beaten (i, j) isOld isNew (by simpa using enough)
      fun changed => (free _ changed).1 rfl
    have := free q hq
    omega

end

/-- Four pairs whose words agree: a neighbour decides for one of them, and it leaves just one other. -/
theorem changed_greedy_neighbours :
    let text : UInt8 → Chunk := fun n => ⟨⟨["x"]⟩, .text ⟨0, none, none⟩ ⟨1, none, none⟩, ⟨.sha256, [n]⟩⟩
    let source : Source := fun _ => .ok (Bytes.ofText "ab cd")
    let config : DeltaConfig := ⟨2, 1, true⟩
    let old := [text 1, text 2, text 9]
    let new := [text 3, text 4, text 9]
    let d : Delta :=
      ⟨[⟨⟨.sha256, [9]⟩, [text 9], [text 9]⟩], [⟨text 1, text 3, 3⟩, ⟨text 2, text 4, 4⟩], [], []⟩
    (compute config source old new).result = .ok d ∧
      (∀ i j c e, Candidate old new i → Candidate new old j → old[i]? = some c → new[j]? = some e →
        source c = .ok (Loading.payload source c) ∧ source e = .ok (Loading.payload source e)) ∧
      ∃ a : Account, a.Exact old new d ∧
        d.changed.map (·.score) = a.changed.map (fun x => pairScore config source old new x.1 x.2) ∧
        (∀ M : Set (Nat × Nat), Greedy (pairScore config source old new) config.minScore (Candidate old new)
          (Candidate new old) M ↔ M = {x | x ∈ a.changed}) ∧
        ∀ i ∈ a.removed, ∀ j ∈ a.added, Candidate old new i → Candidate new old j →
          pairScore config source old new i j < config.minScore := by
  intro text source config old new d
  have computed : (compute config source old new).result = .ok d := by
    cbv
  exact ⟨computed, changed_greedy computed⟩

end Delta

end ContentChunks
