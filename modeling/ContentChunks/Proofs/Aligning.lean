/-
The matching blocks of two sequences align them. The longest common row of a
window is told by how many tokens agree before each pair of places; where it is
empty, the two stretches share no token. So the blocks that are found in a
window, put in order, leave gaps in which nothing agrees, and joining those
that follow each other closes no gap that is not empty.

Main statements:
- `Counted.next`: the lengths count how many tokens agree up to each pair of equal tokens.
- `longest_spec`: the longest common row of a window is common, and leads those that end anywhere in it.
- `search_perm`: what a search of windows finds is what each window decomposes into.
- `aligned_decompose`, `aligned_join`: the blocks of a window align its two stretches.
- `blocks_alignment`: the matching blocks are a maximal ordered alignment.
-/
import ContentChunks.Matching
import Mathlib.Data.List.Basic

namespace ContentChunks.Matching

variable {α : Type} {a b : List α} {w : Window} {m x : Block} {ms ns : List Block}

/-! ## Windows -/

/-- Whether a window is one of two sequences. -/
structure Inside (a b : List α) (w : Window) : Prop where
  a_le : w.aStart ≤ w.aStop
  b_le : w.bStart ≤ w.bStop
  a_within : w.aStop ≤ a.length
  b_within : w.bStop ≤ b.length

/-- Whether a block is a common row of a window. -/
structure Found (a b : List α) (w : Window) (m : Block) : Prop where
  a_start : w.aStart ≤ m.aStart
  b_start : w.bStart ≤ m.bStart
  a_stop : m.aStart + m.length ≤ w.aStop
  b_stop : m.bStart + m.length ≤ w.bStop
  same : ∀ k < m.length, a[m.aStart + k]? = b[m.bStart + k]?

theorem found_start (inside : Inside a b w) : Found a b w ⟨w.aStart, w.bStart, 0⟩ :=
  ⟨Nat.le_refl _, Nat.le_refl _, inside.a_le, inside.b_le, fun k hk => absurd hk (Nat.not_lt_zero k)⟩

/-- Whether no token of a window's stretch of the first sequence is one of its stretch of the second. -/
def Apart (a b : List α) (w : Window) : Prop :=
  ∀ i j, w.aStart ≤ i → i < w.aStop → w.bStart ≤ j → j < w.bStop → a[i]? ≠ b[j]?

/-- The whole of two sequences. -/
def whole (a b : List α) : Window := ⟨0, a.length, 0, b.length⟩

theorem inside_whole (a b : List α) : Inside a b (whole a b) :=
  ⟨Nat.zero_le _, Nat.zero_le _, Nat.le_refl _, Nat.le_refl _⟩

theorem apart_whole (a b : List α) : Apart a b (whole a b) ↔ ∀ t ∈ a, t ∉ b := by
  constructor
  · intro apart t memA memB
    obtain ⟨i, hi, rfl⟩ := List.mem_iff_getElem.1 memA
    obtain ⟨j, hj, same⟩ := List.mem_iff_getElem.1 memB
    refine apart i j (Nat.zero_le i) hi (Nat.zero_le j) hj ?_
    rw [List.getElem?_eq_getElem hi, List.getElem?_eq_getElem hj, same]
  · intro apart i j _ hi _ hj same
    have token := List.getElem?_eq_getElem hi
    rw [token] at same
    exact apart a[i] (List.getElem_mem hi) (List.mem_of_getElem? same.symm)

theorem Found.before (found : Found a b w m) (inside : Inside a b w) : Inside a b (w.before m) :=
  ⟨found.a_start, found.b_start, by have := found.a_stop; have := inside.a_within; simp [Window.before]; omega,
    by have := found.b_stop; have := inside.b_within; simp [Window.before]; omega⟩

theorem Found.after (found : Found a b w m) (inside : Inside a b w) : Inside a b (w.after m) :=
  ⟨found.a_stop, found.b_stop, inside.a_within, inside.b_within⟩

theorem Found.of_before (found : Found a b w m) (inner : Found a b (w.before m) x) : Found a b w x := by
  obtain ⟨_, _, aStop, bStop, _⟩ := found
  obtain ⟨aStart, bStart, aEnd, bEnd, same⟩ := inner
  simp only [Window.before] at aStart bStart aEnd bEnd
  exact ⟨aStart, bStart, by omega, by omega, same⟩

theorem Found.of_after (found : Found a b w m) (inner : Found a b (w.after m) x) : Found a b w x := by
  obtain ⟨aStop, bStop, _, _, _⟩ := found
  obtain ⟨aStart, bStart, aEnd, bEnd, same⟩ := inner
  simp only [Window.after] at aStart bStart aEnd bEnd
  exact ⟨by omega, by omega, aEnd, bEnd, same⟩

/-! ## Alignments -/

/-- Whether blocks are common rows of a window one after the other, and nothing agrees between them. -/
def Aligned (a b : List α) (w : Window) : List Block → Prop
  | [] => Apart a b w
  | m :: rest => 0 < m.length ∧ Found a b w m ∧ Apart a b (w.before m) ∧ Aligned a b (w.after m) rest

theorem aligned_append (filled : 0 < m.length) (found : Found a b w m) (front : Aligned a b (w.before m) ms)
    (back : Aligned a b (w.after m) ns) : Aligned a b w (ms ++ m :: ns) := by
  induction ms generalizing w with
  | nil => exact ⟨filled, found, front, back⟩
  | cons x ms ih =>
    obtain ⟨filledX, inner, apart, rest⟩ := front
    refine ⟨filledX, found.of_before inner, apart, ih ?_ rest back⟩
    obtain ⟨_, _, aStop, bStop, _⟩ := inner
    exact ⟨aStop, bStop, found.a_stop, found.b_stop, found.same⟩

theorem Aligned.found (aligned : Aligned a b w ms) : ∀ x ∈ ms, 0 < x.length ∧ Found a b w x := by
  induction ms generalizing w with
  | nil => simp
  | cons m ms ih =>
    obtain ⟨filled, found, -, rest⟩ := aligned
    refine List.forall_mem_cons.2 ⟨⟨filled, found⟩, fun x mem => ?_⟩
    obtain ⟨filledX, inner⟩ := ih rest x mem
    exact ⟨filledX, found.of_after inner⟩

theorem Aligned.pairwise (aligned : Aligned a b w ms) : ms.Pairwise fun x y => x.aStart < y.aStart := by
  induction ms generalizing w with
  | nil => exact .nil
  | cons m ms ih =>
    obtain ⟨filled, -, -, rest⟩ := aligned
    refine .cons (fun x mem => ?_) (ih rest)
    have := (rest.found x mem).2.a_start
    simp only [Window.after] at this
    omega

theorem Aligned.ordered (aligned : Aligned a b w ms) :
    ms.IsChain fun x y => x.aStart + x.length ≤ y.aStart ∧ x.bStart + x.length ≤ y.bStart := by
  induction ms generalizing w with
  | nil => exact .nil
  | cons m ms ih =>
    obtain ⟨-, -, -, rest⟩ := aligned
    cases ms with
    | nil => exact .singleton m
    | cons x ms =>
      have next := (rest.found x (by simp)).2
      exact .cons_cons ⟨next.a_start, next.b_start⟩ (ih rest)

/-- The window between two blocks. -/
def between (x y : Block) : Window := ⟨x.aStart + x.length, y.aStart, x.bStart + x.length, y.bStart⟩

/-- Nothing agrees between the blocks, nor between them and the ends of the window. -/
theorem Aligned.gaps (aligned : Aligned a b w ms) {s : Block} (aStart : s.aStart + s.length = w.aStart)
    (bStart : s.bStart + s.length = w.bStart) :
    (s :: (ms ++ [Block.mk w.aStop w.bStop 0])).IsChain fun x y => Apart a b (between x y) := by
  induction ms generalizing w s with
  | nil =>
    have gap : between s (Block.mk w.aStop w.bStop 0) = w := by simp only [between, aStart, bStart]
    refine .cons_cons ?_ (.singleton _)
    rw [gap]
    exact aligned
  | cons m ms ih =>
    obtain ⟨-, -, apart, rest⟩ := aligned
    have gap : between s m = w.before m := by simp only [between, Window.before, aStart, bStart]
    refine .cons_cons ?_ (ih rest rfl rfl)
    rw [gap]
    exact apart

theorem Aligned.eq_nil_iff (aligned : Aligned a b w ms) : ms = [] ↔ Apart a b w := by
  cases ms with
  | nil => exact iff_of_true rfl aligned
  | cons m ms =>
    obtain ⟨filled, found, -⟩ := aligned
    have aStop := found.a_stop
    have bStop := found.b_stop
    refine iff_of_false (List.cons_ne_nil m ms) fun apart => ?_
    exact apart m.aStart m.bStart found.a_start (by omega) found.b_start (by omega) (found.same 0 filled)

theorem Found.joined (found : Found a b w m) (inner : Found a b (w.after m) x)
    (follows : m.aStart + m.length = x.aStart ∧ m.bStart + m.length = x.bStart) :
    Found a b w { m with length := m.length + x.length } := by
  obtain ⟨aStart, bStart, -, -, same⟩ := found
  obtain ⟨-, -, aEnd, bEnd, sameX⟩ := inner
  obtain ⟨aFollows, bFollows⟩ := follows
  simp only [Window.after] at aEnd bEnd
  refine ⟨aStart, bStart, by simp; omega, by simp; omega, fun k hk => ?_⟩
  by_cases first : k < m.length
  · exact same k first
  · obtain ⟨d, rfl⟩ : ∃ d, k = m.length + d := ⟨k - m.length, by omega⟩
    have agree := sameX d (by simpa using hk)
    rwa [← aFollows, ← bFollows, Nat.add_assoc, Nat.add_assoc] at agree

/-- Joining blocks that follow each other closes only empty gaps. -/
theorem aligned_joinOnto (aligned : Aligned a b w (m :: ms)) : Aligned a b w (joinOnto m ms) := by
  induction ms generalizing m w with
  | nil => exact aligned
  | cons x ms ih =>
    obtain ⟨filled, found, apart, filledX, inner, apartX, rest⟩ := aligned
    rw [joinOnto]
    split
    · rename_i follows
      refine ih ⟨Nat.add_pos_left filled _, found.joined inner follows, apart, ?_⟩
      have after : w.after { m with length := m.length + x.length } = (w.after m).after x := by
        simp only [Window.after, ← Nat.add_assoc, follows.1, follows.2]
      rwa [after]
    · exact ⟨filled, found, apart, ih ⟨filledX, inner, apartX, rest⟩⟩

theorem aligned_join (aligned : Aligned a b w ms) : Aligned a b w (join ms) := by
  cases ms with
  | nil => exact aligned
  | cons m ms => exact aligned_joinOnto aligned

/-- Whether one block goes on in both sequences where another ends. -/
def Follows (x y : Block) : Prop := x.aStart + x.length = y.aStart ∧ x.bStart + x.length = y.bStart

theorem joinOnto_eq_cons (m : Block) (ms : List Block) :
    ∃ n rest, joinOnto m ms = { m with length := n } :: rest := by
  induction ms generalizing m with
  | nil => exact ⟨m.length, [], rfl⟩
  | cons x ms ih =>
    rw [joinOnto]
    split
    · exact ih _
    · exact ⟨m.length, _, rfl⟩

theorem separate_joinOnto (m : Block) (ms : List Block) : (joinOnto m ms).IsChain fun x y => ¬Follows x y := by
  induction ms generalizing m with
  | nil => exact .singleton m
  | cons x ms ih =>
    rw [joinOnto]
    split
    · exact ih _
    · rename_i apart
      obtain ⟨n, rest, same⟩ := joinOnto_eq_cons x ms
      have chain := ih x
      rw [same] at chain ⊢
      exact .cons_cons apart chain

theorem separate_join (ms : List Block) : (join ms).IsChain fun x y => ¬Follows x y := by
  cases ms with
  | nil => exact .nil
  | cons m ms => exact separate_joinOnto m ms

/-! ## The longest common row -/

variable [DecidableEq α]

/-- How many tokens before two places agree, back to where a window starts. -/
def ending (a b : List α) (aStart bStart : Nat) : Nat → Nat → Nat
  | i + 1, j + 1 =>
    if aStart ≤ i ∧ bStart ≤ j ∧ a[i]? = b[j]? then ending a b aStart bStart i j + 1 else 0
  | _, _ => 0

theorem ending_start {aStart bStart i j : Nat} (start : i ≤ aStart ∨ j ≤ bStart) : ending a b aStart bStart i j = 0 := by
  cases i with
  | zero => rfl
  | succ i =>
    cases j with
    | zero => rfl
    | succ j => rw [ending, if_neg (by omega)]

theorem ending_spec {aStart bStart : Nat} (i j : Nat) (hi : aStart ≤ i) (hj : bStart ≤ j) :
    aStart + ending a b aStart bStart i j ≤ i ∧ bStart + ending a b aStart bStart i j ≤ j ∧
      ∀ k < ending a b aStart bStart i j,
        a[i - ending a b aStart bStart i j + k]? = b[j - ending a b aStart bStart i j + k]? := by
  fun_induction ending a b aStart bStart i j with
  | case1 i j agree ih =>
    obtain ⟨aIn, bIn, same⟩ := agree
    obtain ⟨aEnd, bEnd, before⟩ := ih aIn bIn
    refine ⟨by omega, by omega, fun k hk => ?_⟩
    rw [Nat.succ_sub_succ, Nat.succ_sub_succ]
    by_cases last : k = ending a b aStart bStart i j
    · rw [last, Nat.sub_add_cancel (by omega), Nat.sub_add_cancel (by omega), same]
    · exact before k (by omega)
  | case2 => simpa using ⟨hi, hj⟩
  | case3 => simpa using ⟨hi, hj⟩

/-- What is known when the places before one of the first sequence have been searched: the
places of the second up to which some tokens agree, in increasing order, each with how many. -/
structure Counted (a b : List α) (w : Window) (i : Nat) (lengths : List (Nat × Nat)) : Prop where
  order : lengths.Pairwise fun x y => x.1 < y.1
  mem_iff : ∀ found, found ∈ lengths ↔ w.bStart ≤ found.1 ∧ found.1 < w.bStop ∧ 0 < found.2 ∧
    found.2 = ending a b w.aStart w.bStart i (found.1 + 1)

theorem counted_start (a b : List α) (w : Window) : Counted a b w w.aStart [] := by
  refine ⟨.nil, fun found => iff_of_false List.not_mem_nil fun agree => ?_⟩
  obtain ⟨-, -, filled, same⟩ := agree
  rw [same, ending_start (.inl (Nat.le_refl _))] at filled
  exact Nat.lt_irrefl 0 filled

theorem Counted.lengthBefore {i place : Nat} {lengths : List (Nat × Nat)} (counted : Counted a b w i lengths)
    (stop : place ≤ w.bStop) : lengthBefore lengths place = ending a b w.aStart w.bStart i place := by
  cases place with
  | zero => cases i <;> rfl
  | succ place =>
    rw [Matching.lengthBefore]
    cases known : lengths.lookup place with
    | some count =>
      obtain ⟨before, after, rfl, -⟩ := List.lookup_eq_some_iff.1 known
      exact ((counted.mem_iff (place, count)).1 (by simp)).2.2.2
    | none =>
      by_contra differ
      have filled : 0 < ending a b w.aStart w.bStart i (place + 1) :=
        Nat.pos_of_ne_zero fun zero => differ (by rw [zero, Option.getD_none])
      have start : w.bStart ≤ place := by
        by_contra early
        rw [ending_start (.inr (by omega))] at filled
        exact Nat.lt_irrefl 0 filled
      have listed := (counted.mem_iff (place, _)).2 ⟨start, stop, filled, rfl⟩
      exact absurd (List.lookup_eq_none_iff.1 known _ listed) (by simp)

/-- **The lengths count how many tokens agree** up to each pair of equal tokens. -/
theorem Counted.next {i : Nat} {t : α} {lengths : List (Nat × Nat)} (counted : Counted a b w i lengths)
    (lo : w.aStart ≤ i) (token : a[i]? = some t) :
    Counted a b w (i + 1) (nextLengths lengths ((TokenIndex.of b).placesIn t w.bStart w.bStop)) := by
  refine ⟨List.pairwise_map.2 (TokenIndex.pairwise_placesIn b t _ _), fun found => ?_⟩
  obtain ⟨place, count⟩ := found
  simp only [nextLengths, List.mem_map, Prod.mk.injEq, TokenIndex.mem_placesIn]
  rw [ending]
  constructor
  · intro listed
    obtain ⟨_, ⟨start, stop, there⟩, rfl, rfl⟩ := listed
    rw [counted.lengthBefore (Nat.le_of_lt stop), if_pos ⟨lo, start, by rw [token, there]⟩]
    exact ⟨start, stop, Nat.succ_pos _, rfl⟩
  · intro agree
    obtain ⟨start, stop, filled, same⟩ := agree
    split at same
    · rename_i both
      refine ⟨place, ⟨start, stop, by rw [← both.2.2, token]⟩, rfl, ?_⟩
      rw [counted.lengthBefore (Nat.le_of_lt stop), same]
    · omega

/-- Whether a block is longer than another, or as long and not after it. -/
def Leads (m x : Block) : Prop :=
  x.length < m.length ∨ x.length = m.length ∧ (m.aStart < x.aStart ∨ m.aStart = x.aStart ∧ m.bStart ≤ x.bStart)

theorem Leads.refl (m : Block) : Leads m m := .inr ⟨rfl, .inr ⟨rfl, Nat.le_refl _⟩⟩

theorem Leads.trans {x y z : Block} (h : Leads x y) (h' : Leads y z) : Leads x z := by
  unfold Leads at *
  omega

theorem Leads.length_le {m x : Block} (h : Leads m x) : x.length ≤ m.length := by
  unfold Leads at h
  omega

/-- The block of so many tokens that ends after two places. -/
def endingAt (i : Nat) (found : Nat × Nat) : Block := ⟨i + 1 - found.2, found.1 + 1 - found.2, found.2⟩

/-- Whether a block ends at a place of the first sequence, or after it but not
after any of some places of the second. -/
def Ends (i : Nat) (m : Block) (found : List (Nat × Nat)) : Prop :=
  m.aStart + m.length ≤ i ∨ m.aStart + m.length = i + 1 ∧ ∀ x ∈ found, m.bStart + m.length ≤ x.1

theorem leads_longer {i : Nat} {best : Block} {x : Nat × Nat} {rest : List (Nat × Nat)} (ends : Ends i best (x :: rest))
    (fits : x.2 ≤ i + 1 ∧ x.2 ≤ x.1 + 1) (order : ∀ y ∈ rest, x.1 < y.1) :
    Leads (longer i best x) best ∧ Leads (longer i best x) (endingAt i x) ∧ Ends i (longer i best x) rest := by
  unfold longer
  split
  · rename_i more
    refine ⟨.inl more, Leads.refl _, .inr ⟨by simp only; omega, fun y mem => ?_⟩⟩
    have later := order y mem
    simp only
    omega
  · rename_i short
    obtain earlier | ⟨here, before⟩ := ends
    · refine ⟨Leads.refl best, ?_, .inl earlier⟩
      simp only [Leads, endingAt]
      omega
    · have first := before x (by simp)
      refine ⟨Leads.refl best, ?_, .inr ⟨here, fun y mem => before y (by simp [mem])⟩⟩
      simp only [Leads, endingAt]
      omega

/-- Of several blocks that end at one place of the first sequence, and one that
ends before them, the block that is found is one and leads them all. -/
theorem foldl_longer {i : Nat} {P : Block → Prop} (found : List (Nat × Nat)) (best : Block) (ends : Ends i best found)
    (fits : ∀ x ∈ found, x.2 ≤ i + 1 ∧ x.2 ≤ x.1 + 1) (order : found.Pairwise fun x y => x.1 < y.1) (good : P best)
    (goodFound : ∀ x ∈ found, P (endingAt i x)) :
    P (found.foldl (longer i) best) ∧ Ends i (found.foldl (longer i) best) [] ∧
      Leads (found.foldl (longer i) best) best ∧ ∀ x ∈ found, Leads (found.foldl (longer i) best) (endingAt i x) := by
  induction found generalizing best with
  | nil => exact ⟨good, ends, Leads.refl best, by simp⟩
  | cons x rest ih =>
    obtain ⟨later, order⟩ := List.pairwise_cons.1 order
    obtain ⟨leadsBest, leadsFirst, ends⟩ := leads_longer ends (fits x (by simp)) later
    have goodLonger : P (longer i best x) := by
      unfold longer
      split
      · exact goodFound x (by simp)
      · exact good
    obtain ⟨last, ends, leads, leadsRest⟩ := ih (longer i best x) ends (fun y mem => fits y (by simp [mem])) order
      goodLonger fun y mem => goodFound y (by simp [mem])
    rw [List.foldl_cons]
    exact ⟨last, ends, leads.trans leadsBest, List.forall_mem_cons.2 ⟨leads.trans leadsFirst, leadsRest⟩⟩

/-- The longest common row of a window that ends before two places. -/
def rowEnding (a b : List α) (w : Window) (x y : Nat) : Block :=
  ⟨x - ending a b w.aStart w.bStart x y, y - ending a b w.aStart w.bStart x y, ending a b w.aStart w.bStart x y⟩

theorem found_rowEnding {x y : Nat} (aStart : w.aStart ≤ x) (aStop : x ≤ w.aStop) (bStart : w.bStart ≤ y)
    (bStop : y ≤ w.bStop) : Found a b w (rowEnding a b w x y) := by
  obtain ⟨aEnd, bEnd, same⟩ := ending_spec (a := a) (b := b) x y aStart bStart
  exact ⟨by simp only [rowEnding]; omega, by simp only [rowEnding]; omega, by simp only [rowEnding]; omega,
    by simp only [rowEnding]; omega, same⟩

theorem rowEnding_start {x y : Nat} (start : x ≤ w.aStart ∨ y ≤ w.bStart) : rowEnding a b w x y = ⟨x, y, 0⟩ := by
  simp only [rowEnding, ending_start start, Nat.sub_zero]

/-- What leads the empty row where the window starts leads every empty row of it. -/
theorem Leads.empty {m : Block} {x y : Nat} (h : Leads m ⟨w.aStart, w.bStart, 0⟩) (aStart : w.aStart ≤ x)
    (bStart : w.bStart ≤ y) : Leads m ⟨x, y, 0⟩ := by
  refine h.trans (.inr ⟨rfl, ?_⟩)
  show w.aStart < x ∨ w.aStart = x ∧ w.bStart ≤ y
  omega

theorem Counted.endingAt {i : Nat} {lengths : List (Nat × Nat)} (counted : Counted a b w (i + 1) lengths)
    {found : Nat × Nat} (mem : found ∈ lengths) : endingAt i found = rowEnding a b w (i + 1) (found.1 + 1) := by
  obtain ⟨-, -, -, same⟩ := (counted.mem_iff found).1 mem
  rw [Matching.endingAt, rowEnding, ← same]

/-- What has been found when the places before one of the first sequence have been searched. -/
structure Searched (a b : List α) (w : Window) (i : Nat) (best : Block) : Prop where
  found : Found a b w best
  ends : best.aStart + best.length ≤ i
  leads : ∀ x y, w.aStart ≤ x → x ≤ i → w.bStart ≤ y → y ≤ w.bStop → Leads best (rowEnding a b w x y)

theorem Searched.next {i : Nat} {best : Block} {lengths : List (Nat × Nat)} (searched : Searched a b w i best)
    (counted : Counted a b w (i + 1) lengths) (lo : w.aStart ≤ i) (hi : i < w.aStop) :
    Searched a b w (i + 1) (lengths.foldl (longer i) best) := by
  have fits : ∀ x ∈ lengths, x.2 ≤ i + 1 ∧ x.2 ≤ x.1 + 1 := by
    intro x mem
    obtain ⟨start, -, -, same⟩ := (counted.mem_iff x).1 mem
    obtain ⟨aEnd, bEnd, -⟩ := ending_spec (a := a) (b := b) (i + 1) (x.1 + 1) (Nat.le_succ_of_le lo)
      (Nat.le_succ_of_le start)
    omega
  have good : ∀ x ∈ lengths, Found a b w (endingAt i x) := by
    intro x mem
    obtain ⟨start, stop, -⟩ := (counted.mem_iff x).1 mem
    rw [counted.endingAt mem]
    exact found_rowEnding (by omega) hi (by omega) stop
  obtain ⟨found, ends, more, allLead⟩ := foldl_longer _ best (.inl searched.ends) fits counted.order searched.found good
  have b_le : w.bStart ≤ w.bStop := by
    have := searched.found.b_start
    have := searched.found.b_stop
    omega
  have first := more.trans (searched.leads w.aStart w.bStart (Nat.le_refl _) lo (Nat.le_refl _) b_le)
  rw [rowEnding_start (.inl (Nat.le_refl _))] at first
  refine ⟨found, ends.elim Nat.le_succ_of_le fun both => Nat.le_of_eq both.1, fun x y xStart hx yStart hy => ?_⟩
  by_cases old : x ≤ i
  · exact more.trans (searched.leads x y xStart old yStart hy)
  obtain rfl : x = i + 1 := by omega
  by_cases nothing : ending a b w.aStart w.bStart (i + 1) y = 0
  · rw [rowEnding, nothing]
    exact first.empty xStart yStart
  · -- where tokens agree, how many has been counted
    obtain ⟨j, rfl⟩ : ∃ j, y = j + 1 := by
      refine ⟨y - 1, (Nat.succ_pred_eq_of_ne_zero fun zero => nothing ?_).symm⟩
      exact ending_start (.inr (zero ▸ Nat.zero_le _))
    have start : w.bStart ≤ j := by
      by_contra early
      exact nothing (ending_start (.inr (by omega)))
    have mem := (counted.mem_iff (j, _)).2 ⟨start, hy, Nat.pos_of_ne_zero nothing, rfl⟩
    have leads := allLead _ mem
    rwa [counted.endingAt mem] at leads

omit [DecidableEq α] in
theorem le_of_stretch_nil {i stop : Nat} (bound : stop ≤ a.length) (isRest : [] = (a.drop i).take (stop - i)) :
    stop ≤ i := by
  have size := congrArg List.length isRest
  rw [List.length_nil, List.length_take, List.length_drop] at size
  omega

omit [DecidableEq α] in
theorem stretch_cons {i stop : Nat} {t : α} {rest : List α} (bound : stop ≤ a.length)
    (isRest : t :: rest = (a.drop i).take (stop - i)) :
    i < stop ∧ a[i]? = some t ∧ rest = (a.drop (i + 1)).take (stop - (i + 1)) := by
  have size := congrArg List.length isRest
  rw [List.length_cons, List.length_take, List.length_drop] at size
  have within : i < a.length := by omega
  rw [List.drop_eq_getElem_cons within, (by omega : stop - i = (stop - (i + 1)) + 1), List.take_succ_cons,
    List.cons.injEq] at isRest
  exact ⟨by omega, by rw [List.getElem?_eq_getElem within, isRest.1], isRest.2⟩

theorem longestFrom_spec (bound : w.aStop ≤ a.length) {i : Nat} {rest : List α} {lengths : List (Nat × Nat)} {best : Block}
    (searched : Searched a b w i best) (counted : Counted a b w i lengths) (lo : w.aStart ≤ i) (hi : i ≤ w.aStop)
    (isRest : rest = (a.drop i).take (w.aStop - i)) :
    Searched a b w w.aStop (longestFrom (.of b) w.bStart w.bStop i rest lengths best) := by
  induction rest generalizing i lengths best with
  | nil =>
    obtain rfl : i = w.aStop := Nat.le_antisymm hi (le_of_stretch_nil bound isRest)
    exact searched
  | cons t rest ih =>
    obtain ⟨within, token, isRest⟩ := stretch_cons bound isRest
    have next := counted.next lo token
    rw [longestFrom]
    exact ih (searched.next next lo within) next (Nat.le_succ_of_le lo) within isRest

/-- **The longest common row of a window** is common, and leads the rows that end at any two places of it. -/
theorem longest_spec (inside : Inside a b w) : Searched a b w w.aStop (longest a (.of b) w) := by
  have start : Searched a b w w.aStart ⟨w.aStart, w.bStart, 0⟩ := by
    refine ⟨found_start inside, Nat.le_refl _, fun x y xStart hx yStart _ => ?_⟩
    rw [rowEnding_start (.inl hx)]
    exact (Leads.refl _).empty xStart yStart
  exact longestFrom_spec inside.a_within start (counted_start a b w) (Nat.le_refl _) inside.a_le rfl

theorem apart_of_longest (inside : Inside a b w) (empty : (longest a (.of b) w).length = 0) : Apart a b w := by
  intro i j aStart aStop bStart bStop same
  have short := ((longest_spec inside).leads (i + 1) (j + 1) (by omega) aStop (by omega) bStop).length_le
  rw [rowEnding, ending, if_pos ⟨aStart, bStart, same⟩, empty] at short
  exact absurd short (Nat.not_succ_le_zero _)

/-! ## Windows and what they decompose into -/

/-- The longest common rows of a window and of the windows before and after it, in order. -/
def decompose (a b : List α) (w : Window) : List Block :=
  if (longest a (.of b) w).length = 0 then []
  else decompose a b (w.before (longest a (.of b) w)) ++ longest a (.of b) w :: decompose a b (w.after (longest a (.of b) w))
termination_by w.work
decreasing_by
  · have := longest_within a (.of b) w (by omega)
    simp only [Window.work, Window.before]
    omega
  · have := longest_within a (.of b) w (by omega)
    simp only [Window.work, Window.after]
    omega

/-- **What a search finds** is what its windows decompose into, in some order. -/
theorem search_perm (a b : List α) (windows : List Window) :
    (search a b windows).Perm (windows.flatMap (decompose a b)) := by
  unfold search
  fun_induction searchIn a (.of b) windows with
  | case1 => rfl
  | case2 w rest zero ih =>
    rw [List.flatMap_cons, decompose, if_pos zero]
    exact ih
  | case3 w rest filled ih =>
    rw [List.flatMap_cons, decompose, if_neg filled]
    refine (List.Perm.cons _ ih).trans ?_
    rw [List.flatMap_cons, List.flatMap_cons, List.append_assoc, List.cons_append]
    exact ((List.perm_append_comm_assoc _ _ _).cons _).trans List.perm_middle.symm

/-- The blocks of a window align its two stretches. -/
theorem aligned_decompose (inside : Inside a b w) : Aligned a b w (decompose a b w) := by
  fun_induction decompose a b w with
  | case1 w zero => exact apart_of_longest inside zero
  | case2 w filled before after =>
    have found := (longest_spec inside).found
    exact aligned_append (Nat.pos_of_ne_zero filled) found (before (found.before inside)) (after (found.after inside))

/-! ## Blocks in order -/

theorem isLE_compare_iff {x y : Block} :
    (compare x y).isLE = true ↔ x.aStart < y.aStart ∨
      x.aStart = y.aStart ∧ (x.bStart < y.bStart ∨ x.bStart = y.bStart ∧ x.length ≤ y.length) := by
  have same : compare x y =
    (compare x.aStart y.aStart).then ((compare x.bStart y.bStart).then (compare x.length y.length)) := rfl
  rw [same, Ordering.isLE_then_iff_or, Ordering.isLE_then_iff_or, Nat.compare_eq_lt, Nat.compare_eq_eq,
    Nat.compare_eq_lt, Nat.compare_eq_eq, Nat.isLE_compare]

theorem sorted_eq_of_pairwise (perm : ns.Perm ms) (ordered : ms.Pairwise fun x y => x.aStart < y.aStart) :
    sorted ns = ms := by
  have inOrder : ms.Pairwise fun x y => (compare x y).isLE = true :=
    ordered.imp fun less => isLE_compare_iff.2 (.inl less)
  refine ((sorted_perm ns).trans perm).eq_of_pairwise ?_ ?_ inOrder
  · intro x y _ _ le ge
    rw [isLE_compare_iff] at le ge
    obtain ⟨_, _, _⟩ := x
    obtain ⟨_, _, _⟩ := y
    simp only [Block.mk.injEq] at le ge ⊢
    omega
  · refine List.pairwise_mergeSort (fun x y z => ?_) (fun x y => ?_) ns
    · rw [isLE_compare_iff, isLE_compare_iff, isLE_compare_iff]
      omega
    · rw [Bool.or_eq_true, isLE_compare_iff, isLE_compare_iff]
      omega

/-- What the search of the whole window finds is in order what that decomposes into. -/
theorem sorted_search (a b : List α) : sorted (search a b [whole a b]) = decompose a b (whole a b) := by
  have perm := search_perm a b [whole a b]
  rw [List.flatMap_singleton] at perm
  exact sorted_eq_of_pairwise perm (aligned_decompose (inside_whole a b)).pairwise

/-- **The matching blocks** are what the whole window decomposes into, joined. -/
theorem blocks_eq_join (a b : List α) : blocks a b = join (decompose a b (whole a b)) :=
  congrArg join (sorted_search a b)

theorem aligned_blocks (a b : List α) : Aligned a b (whole a b) (blocks a b) := by
  rw [blocks_eq_join]
  exact aligned_join (aligned_decompose (inside_whole a b))

/-- Whether blocks are a maximal ordered alignment of two sequences. -/
structure Alignment (a b : List α) (ms : List Block) : Prop where
  /-- Each block has tokens, and they are the same in both sequences. -/
  common : ∀ m ∈ ms, 1 ≤ m.length ∧ m.aStart + m.length ≤ a.length ∧ m.bStart + m.length ≤ b.length ∧
    ∀ k < m.length, a[m.aStart + k]? = b[m.bStart + k]?
  /-- Each starts where the one before it has ended, or later, in both sequences. -/
  ordered : ms.IsChain fun x y => x.aStart + x.length ≤ y.aStart ∧ x.bStart + x.length ≤ y.bStart
  /-- No two are adjacent in both sequences. -/
  separate : ms.IsChain fun x y => ¬Follows x y
  /-- Before the first, between two and after the last no token of the one sequence is one of the other. -/
  gaps : (Block.mk 0 0 0 :: (ms ++ [Block.mk a.length b.length 0])).IsChain fun x y => Apart a b (between x y)

/-- **The matching blocks of two sequences** are a maximal ordered alignment of
them, and there is none exactly when the sequences share no token. -/
theorem blocks_alignment (a b : List α) :
    Alignment a b (blocks a b) ∧ (blocks a b = [] ↔ ∀ t ∈ a, t ∉ b) := by
  have aligned := aligned_blocks a b
  have separate : (blocks a b).IsChain fun x y => ¬Follows x y := by
    rw [blocks_eq_join]
    exact separate_join _
  refine ⟨⟨fun m mem => ?_, aligned.ordered, separate, aligned.gaps rfl rfl⟩, ?_⟩
  · obtain ⟨filled, found⟩ := aligned.found m mem
    exact ⟨filled, found.a_stop, found.b_stop, found.same⟩
  · rw [aligned.eq_nil_iff, apart_whole]

end ContentChunks.Matching
