/-
What sequences score. The similarity counts the tokens in the matching blocks and
one more for each block, so it is decided by how many tokens match and into how
many rows they fall: it is nothing without a common token, two at least with one,
and never more than twice the tokens of the shorter sequence. A sequence that is
found in another in one row scores less against it than one whose tokens are
scattered there.

Main statements:
- `Aligned.matched_le`: blocks that align two stretches are no more than the tokens
  they match, and these no more than the tokens of either stretch.
- `similarity_of_contiguous`: a sequence that is found in one row counts its tokens and one more.
- `similarity_intersperse`: one whose tokens are all kept apart counts each twice.
- `similarity_le_self_iff`: when a sequence scores no more against another than that does against itself.
- `similarity_bounds`: the bounds of the similarity, and so which texts may be paired by default.
-/
import ContentChunks.Proofs.Decomposing
import ContentChunks.Proofs.Greedy

namespace ContentChunks

namespace Matching

variable {α : Type} {a b : List α} {w : Window} {m x : Block} {ms ns : List Block}

/-! ## Tokens and blocks -/

/-- How many tokens of either sequence are in some blocks. -/
def matched : List Block → Nat
  | [] => 0
  | m :: rest => m.length + matched rest

theorem weight_eq (ms : List Block) : weight ms = matched ms + ms.length := by
  induction ms with
  | nil => rfl
  | cons m ms ih =>
    rw [weight, matched, ih, List.length_cons]
    omega

/-- **Blocks that align two stretches** are no more than the tokens in them, and these
no more than those of either stretch: none is empty, and they lie one after the other. -/
theorem Aligned.matched_le (aligned : Aligned a b w ms) : ms.length ≤ matched ms ∧
    matched ms ≤ w.aStop - w.aStart ∧ matched ms ≤ w.bStop - w.bStart := by
  induction ms generalizing w with
  | nil => exact ⟨Nat.le_refl _, Nat.zero_le _, Nat.zero_le _⟩
  | cons m ms ih =>
    obtain ⟨filled, found, -, rest⟩ := aligned
    obtain ⟨aStart, bStart, aStop, bStop, -⟩ := found
    have := ih rest
    simp only [Window.after] at this
    simp only [matched, List.length_cons]
    omega

/-! ## Rows in one piece, and tokens kept apart -/

theorem decomposes_nil (noTokens : w.aStop = w.aStart) (order : w.bStart ≤ w.bStop) : Decomposes a b w [] := by
  have empty : IsLongest a b w ⟨w.aStart, w.bStart, 0⟩ := by
    refine ⟨⟨Nat.le_refl _, Nat.le_refl _, Nat.le_of_eq noTokens.symm, order, fun k hk => absurd hk (Nat.not_lt_zero k)⟩, ?_⟩
    intro x found
    obtain ⟨aStart, bStart, aStop, -, -⟩ := found
    simp only [Leads]
    omega
  exact .empty empty rfl

section Apart

variable {t : α} (fresh : t ∉ a)
include fresh

/-- Where a foreign token stands between each two tokens of a sequence, these stand at the even places. -/
theorem Found.even_of_intersperse (found : Found a (a.intersperse t) w x) (within : w.bStop ≤ 2 * a.length - 1)
    {k : Nat} (hk : k < x.length) : (x.bStart + k) % 2 = 0 := by
  by_contra odd
  obtain ⟨i, place⟩ : ∃ i, x.bStart + k = 2 * i + 1 := ⟨(x.bStart + k) / 2, by omega⟩
  have stop := found.b_stop
  have same := found.same k hk
  rw [place, List.getElem?_intersperse_two_mul_add_one (by omega)] at same
  exact fresh (List.mem_of_getElem? same)

theorem isLongest_intersperse {i start : Nat} (within : i < a.length) (lo : start ≤ 2 * i) (hi : 2 * i ≤ start + 1) :
    IsLongest a (a.intersperse t) ⟨i, a.length, start, 2 * a.length - 1⟩ ⟨i, 2 * i, 1⟩ := by
  refine ⟨⟨Nat.le_refl _, lo, within, by simp only; omega, fun k hk => ?_⟩, fun x found => ?_⟩
  · obtain rfl : k = 0 := by simp only at hk; omega
    simp only [Nat.add_zero]
    exact List.getElem?_intersperse_two_mul.symm
  · have even := fun k => found.even_of_intersperse fresh (Nat.le_refl _) (k := k)
    obtain ⟨aStart, bStart, -, -, -⟩ := found
    -- a longer row would have two places in a row that are even
    have short : x.length ≤ 1 := by
      by_contra long
      have := even 0 (by omega)
      have := even 1 (by omega)
      omega
    simp only at aStart bStart
    simp only [Leads]
    by_cases filled : x.length = 1
    · have := even 0 (by omega)
      omega
    · omega

/-- From a token on, each of the tokens is a block of its own. -/
theorem exists_decomposes_intersperse {i start : Nat} (within : i ≤ a.length) (lo : start ≤ 2 * i)
    (hi : 2 * i ≤ start + 1) (order : start ≤ 2 * a.length - 1) :
    ∃ ms, Decomposes a (a.intersperse t) ⟨i, a.length, start, 2 * a.length - 1⟩ ms ∧ weight ms = 2 * (a.length - i) := by
  induction left : a.length - i generalizing i start with
  | zero => exact ⟨[], decomposes_nil (by simp only; omega) order, rfl⟩
  | succ n ih =>
    have longest := isLongest_intersperse fresh (by omega) lo hi
    obtain ⟨ms, rest, counts⟩ : ∃ ms, Decomposes a (a.intersperse t) ⟨i + 1, a.length, 2 * i + 1, 2 * a.length - 1⟩ ms ∧
        weight ms = 2 * n :=
      ih (by omega) (by omega) (by omega) (by omega) (by omega)
    refine ⟨[] ++ ⟨i, 2 * i, 1⟩ :: ms, .split longest Nat.one_pos (decomposes_nil rfl lo) rest, ?_⟩
    rw [List.nil_append, weight, counts]
    show 1 + 1 + 2 * n = 2 * (n + 1)
    omega

end Apart

variable [DecidableEq α]

theorem blocks_eq_of_decomposes (h : Decomposes a b (whole a b) ms) : blocks a b = ms := by
  have decomposes := decomposes_decompose (inside_whole a b)
  rw [blocks_eq_join, join_of_separate decomposes.separate]
  exact decomposes.unique h

/-- A sequence that is found in another in one row has that row for its only block. -/
theorem exists_blocks_of_contiguous (row : a <:+: b) (given : a ≠ []) : ∃ j, blocks a b = [⟨0, j, a.length⟩] := by
  obtain ⟨front, back, rfl⟩ := row
  obtain ⟨⟨i, j, n⟩, longest⟩ : ∃ m, IsLongest a (front ++ a ++ back) (whole a (front ++ a ++ back)) m :=
    ⟨_, longest_isLongest (inside_whole _ _)⟩
  have row : Found a (front ++ a ++ back) (whole a (front ++ a ++ back)) ⟨0, front.length, a.length⟩ := by
    refine ⟨Nat.le_refl _, Nat.zero_le _, by simp [whole], by simp [whole], fun k hk => ?_⟩
    dsimp only at hk ⊢
    rw [Nat.zero_add, List.append_assoc, List.getElem?_append_right (by omega), Nat.add_sub_cancel_left,
      List.getElem?_append_left hk]
  have long := (longest.leads _ row).length_le
  obtain ⟨-, bStart, aStop, bStop, -⟩ := longest.toFound
  have filled := List.length_pos_iff.2 given
  simp only [whole] at bStart aStop bStop long
  obtain ⟨rfl, rfl⟩ : i = 0 ∧ n = a.length := by omega
  have nothing (s t : Nat) (order : s ≤ t) (i : Nat) : Decomposes a (front ++ a ++ back) ⟨i, i, s, t⟩ [] :=
    decomposes_nil rfl order
  refine ⟨j, blocks_eq_of_decomposes (.split longest filled (nothing 0 j (Nat.zero_le j) 0) ?_)⟩
  simp only [Window.after, Nat.zero_add]
  exact nothing _ _ bStop _

/-! ## The score -/

theorem matched_blocks_le (a b : List α) : (blocks a b).length ≤ matched (blocks a b) ∧
    matched (blocks a b) ≤ a.length ∧ matched (blocks a b) ≤ b.length :=
  (aligned_blocks a b).matched_le

theorem similarity_eq (a b : List α) :
    similarity a b = min scoreLimit (matched (blocks a b) + (blocks a b).length) := by
  rw [similarity, weight_eq]

/-- **A sequence scores at most twice its tokens**, and against any other at most twice those of the shorter one. -/
theorem similarity_le (a b : List α) : similarity a b ≤ min scoreLimit (2 * min a.length b.length) := by
  have := matched_blocks_le a b
  rw [similarity_eq]
  omega

/-- **A sequence that is found in one row** counts its tokens and one more. -/
theorem similarity_of_contiguous (row : a <:+: b) (given : a ≠ []) : similarity a b = min scoreLimit (a.length + 1) := by
  obtain ⟨j, single⟩ := exists_blocks_of_contiguous row given
  rw [similarity, single]
  rfl

/-- **Tokens that are all kept apart count twice each.** -/
theorem similarity_intersperse {t : α} (fresh : t ∉ a) : similarity a (a.intersperse t) = min scoreLimit (2 * a.length) := by
  obtain ⟨ms, decomposes, counts⟩ :=
    exists_decomposes_intersperse fresh (Nat.zero_le _) (Nat.le_refl 0) (Nat.zero_le _) (Nat.zero_le _)
  have whole : whole a (a.intersperse t) = ⟨0, a.length, 0, 2 * a.length - 1⟩ := by
    rw [whole, List.length_intersperse]
  rw [similarity, blocks_eq_of_decomposes (whole ▸ decomposes), counts, Nat.sub_zero]

theorem similarity_eq_zero_iff (a b : List α) : similarity a b = 0 ↔ ∀ t ∈ a, t ∉ b := by
  rw [← apart_whole, ← (aligned_blocks a b).eq_nil_iff, similarity]
  cases blocks a b with
  | nil => exact iff_of_true rfl rfl
  | cons m ms =>
    refine iff_of_false ?_ (List.cons_ne_nil m ms)
    simp only [weight, scoreLimit]
    omega

/-- **With a common token the score is two at least.** -/
theorem two_le_similarity {t : α} (inA : t ∈ a) (inB : t ∈ b) : 2 ≤ similarity a b := by
  have filled : blocks a b ≠ [] := by
    rw [Ne, (aligned_blocks a b).eq_nil_iff, apart_whole]
    exact fun apart => apart t inA inB
  have count := List.length_pos_iff.2 filled
  have := matched_blocks_le a b
  rw [similarity_eq, scoreLimit]
  omega

/-- **When a sequence scores no more against another than against itself**: when
the blocks are at most one more than the tokens of it that are in none. Scattered
tokens score more than a row of all of them: kept apart by one foreign token each,
they reach the most that any sequence scores. -/
theorem similarity_le_self_iff (a b : List α) :
    (similarity a b ≤ similarity a a ↔
      scoreLimit ≤ a.length + 1 ∨ (blocks a b).length ≤ a.length - matched (blocks a b) + 1) ∧
    similarity a b ≤ min scoreLimit (2 * a.length) ∧
    (a <:+: b → similarity a b = similarity a a) ∧
    ∀ t, t ∉ a → similarity a (a.intersperse t) = min scoreLimit (2 * a.length) := by
  have counts := matched_blocks_le a b
  by_cases given : a = []
  · subst given
    have scoreNil (b : List α) : similarity [] b = 0 := (similarity_eq_zero_iff [] b).2 (by simp)
    simp only [List.length_nil] at counts
    simp only [scoreNil, List.length_nil, Nat.mul_zero, Nat.min_zero, Nat.le_refl, implies_true, and_true, true_iff]
    omega
  · have self := similarity_of_contiguous (List.infix_refl a) given
    refine ⟨?_, ?_, fun row => ?_, fun t fresh => similarity_intersperse fresh⟩
    · rw [self, similarity_eq]
      omega
    · have := similarity_le a b
      omega
    · rw [similarity_of_contiguous row given, self]

/-- Four tokens after another one, and kept apart by it. -/
theorem similarity_le_self_iff_apart :
    let a := ["p", "q", "r", "s"]
    let b := ["_", "p", "q", "r", "s"]
    a <:+: b ∧ "_" ∉ a ∧
      (similarity a b ≤ similarity a a ↔
        scoreLimit ≤ a.length + 1 ∨ (blocks a b).length ≤ a.length - matched (blocks a b) + 1) ∧
      similarity a b = similarity a a ∧ similarity a (a.intersperse "_") = min scoreLimit (2 * a.length) := by
  intro a b
  have row : a <:+: b := List.IsSuffix.isInfix (List.suffix_cons "_" a)
  have fresh : "_" ∉ a := by decide
  obtain ⟨iff, -, whole, apart⟩ := similarity_le_self_iff a b
  exact ⟨row, fresh, iff, whole row, apart "_" fresh⟩

/-- **A sequence may score less against itself than scattered tokens of it do.** -/
theorem similarity_self_lt_scattered :
    let a := ["p", "q", "r", "s"]
    let b := ["p", "_", "q", "_", "r", "_", "s"]
    similarity a a = 5 ∧ similarity a b = 8 ∧ ¬similarity a b ≤ similarity a a := by
  intro a b
  have self : similarity a a = 5 := by cbv
  have scattered : similarity a b = 8 := by cbv
  exact ⟨self, scattered, by omega⟩

theorem two_le_similarity_iff (a b : List α) : 2 ≤ similarity a b ↔ ∃ t ∈ a, t ∈ b := by
  constructor
  · intro enough
    by_contra apart
    have := (similarity_eq_zero_iff a b).2 (by simpa using apart)
    omega
  · intro ⟨t, inA, inB⟩
    exact two_le_similarity inA inB

/-- The bounds of the similarity of two sequences. -/
structure Bounds (a b : List α) : Prop where
  apart : (∀ t ∈ a, t ∉ b) → similarity a b = 0
  common : (∃ t ∈ a, t ∈ b) → 2 ≤ similarity a b
  never_one : similarity a b ≠ 1
  most : similarity a b ≤ min scoreLimit (2 * min a.length b.length)
  self : a ≠ [] → similarity a a = min scoreLimit (a.length + 1)

theorem bounds (a b : List α) : Bounds a b where
  apart := (similarity_eq_zero_iff a b).2
  common := (two_le_similarity_iff a b).2
  never_one one := by
    have common := mt (two_le_similarity_iff a b).2 (by omega)
    have := (similarity_eq_zero_iff a b).2 (by simpa using common)
    omega
  most := similarity_le a b
  self := similarity_of_contiguous (List.infix_refl a)

end Matching

/-! ## Texts that may be paired -/

namespace Delta

variable {source : Source} {old new : List Chunk}

/-- Whether a source has the chunks at two places, and a word of the one has the code of a word of the other. -/
def ShareCode (source : Source) (old new : List Chunk) (i j : Nat) : Prop :=
  ∃ c e x y, old[i]? = some c ∧ new[j]? = some e ∧ source c = .ok x ∧ source e = .ok y ∧
    ∃ code ∈ codesOf x, code ∈ codesOf y

theorem pairScore_of_no_bonus {config : DeltaConfig} (noBonus : config.adjacencyBonus = 0) {i j : Nat} {c e : Chunk}
    (hc : old[i]? = some c) (he : new[j]? = some e) : pairScore config source old new i j =
      Matching.similarity (codesOf (Loading.payload source c)) (codesOf (Loading.payload source e)) := by
  simp only [pairScore, hc, he, scoreOf, noBonus, Nat.zero_mul, Nat.add_zero]
  exact Nat.min_eq_right (Nat.min_le_left ..)

/-- **The default threshold lets those pairs through that share a code.** -/
theorem eligible_of_compute {parallel : Bool} {d : Delta}
    (computed : (compute { adjacencyBonus := 0, parallel } source old new).result = .ok d) :
    ∃ scored : List ScoredPair, d = assemble old new (ScoredPair.assign 2 scored) ∧
      (∀ p, p ∈ scored ↔ Candidate old new p.old ∧ Candidate new old p.new ∧
        p.score = pairScore { adjacencyBonus := 0, parallel } source old new p.old p.new) ∧
      ∀ p ∈ scored, 2 ≤ p.score ↔ ShareCode source old new p.old p.new := by
  obtain ⟨ps, paired, made⟩ := Loading.result_bind_eq_ok.1 computed
  obtain rfl := Except.ok.inj made
  obtain ⟨loaded, scored, rfl, all⟩ := scored_of_pairs paired
  refine ⟨scored, rfl, all, fun p listed => ?_⟩
  obtain ⟨isOld, isNew, score⟩ := (all p).1 listed
  obtain ⟨c, hc, -⟩ := id isOld
  obtain ⟨e, he, -⟩ := id isNew
  obtain ⟨hasC, hasE⟩ := loaded _ _ c e isOld isNew hc he
  rw [score, pairScore_of_no_bonus rfl hc he, Matching.two_le_similarity_iff]
  constructor
  · intro common
    exact ⟨c, e, _, _, hc, he, hasC, hasE, common⟩
  · intro ⟨c', e', x, y, hc', he', hasX, hasY, common⟩
    obtain rfl := Option.some.inj (hc.symm.trans hc')
    obtain rfl := Option.some.inj (he.symm.trans he')
    rw [Loading.payload, Loading.payload, hasX, hasY]
    exact common

/-- **The similarity of two sequences** is nothing where no token is common and two
at least where one is, never one; it is at most twice the tokens of the shorter
sequence, and of a sequence with itself its tokens and one more, all kept below the
limit. So with no bonus, of the pairs of texts that are scored the default threshold
lets those through that share a code. -/
theorem similarity_bounds {α : Type} [DecidableEq α] (a b : List α) :
    Matching.Bounds a b ∧ ∀ (parallel : Bool) (source : Source) (old new : List Chunk) (d : Delta),
      (compute { adjacencyBonus := 0, parallel } source old new).result = .ok d →
      ∃ scored : List ScoredPair, d = assemble old new (ScoredPair.assign 2 scored) ∧
        (∀ p, p ∈ scored ↔ Candidate old new p.old ∧ Candidate new old p.new ∧
          p.score = pairScore { adjacencyBonus := 0, parallel } source old new p.old p.new) ∧
        ∀ p ∈ scored, 2 ≤ p.score ↔ ShareCode source old new p.old p.new :=
  ⟨Matching.bounds a b, fun _ _ _ _ _ computed => eligible_of_compute computed⟩

/-- Two texts that share a code, and one that has none of it. -/
theorem similarity_bounds_texts :
    let text : UInt8 → Chunk := fun n => ⟨⟨["x"]⟩, .text ⟨0, none, none⟩ ⟨1, none, none⟩, ⟨.sha256, [n]⟩⟩
    let source : Source := fun c => .ok (Bytes.ofText (if c.signature.digest = [3] then "gamma" else "alpha beta"))
    let old := [text 1]
    let new := [text 2, text 3]
    let d : Delta := ⟨[], [⟨text 1, text 2, 3⟩], [], [text 3]⟩
    Matching.Bounds ["A410", "B300"] ["B300", "A410"] ∧
      (compute { adjacencyBonus := 0, parallel := true } source old new).result = .ok d ∧
      ∃ scored : List ScoredPair, d = assemble old new (ScoredPair.assign 2 scored) ∧
        (∀ p, p ∈ scored ↔ Candidate old new p.old ∧ Candidate new old p.new ∧
          p.score = pairScore { adjacencyBonus := 0, parallel := true } source old new p.old p.new) ∧
        ∀ p ∈ scored, 2 ≤ p.score ↔ ShareCode source old new p.old p.new := by
  intro text source old new d
  have computed : (compute { adjacencyBonus := 0, parallel := true } source old new).result = .ok d := by cbv
  obtain ⟨bounds, eligible⟩ := similarity_bounds ["A410", "B300"] ["B300", "A410"]
  exact ⟨bounds, computed, eligible true source old new d computed⟩

end Delta

end ContentChunks
